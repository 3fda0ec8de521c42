import StyleAudit.Number.Decimal
/-!
JSON values.
-/
namespace StyleAudit.Json

/-- A value. A number is a decimal; one that is read has the digits that 64 bits hold. The members of an object are in the
order they were written, each key once. -/
inductive Value where
  | null
  | bool (b : Bool)
  | number (n : Decimal)
  | string (s : String)
  | array (items : List Value)
  | object (members : List (String × Value))
  deriving Repr

namespace Value

/-- The value of a key; none if the value is no object. -/
def get? (key : String) : Value → Option Value
  | .object members => (members.find? (·.1 = key)).map Prod.snd
  | _ => none

/-- A marker that switches an entry on: true, a number that does not become zero in double precision, a text other than the empty
one and `0`, and every array and object. -/
def isTruthy : Value → Bool
  | .null => false
  | .bool b => b
  | .number n => !n.stepwise.isZero
  | .string s => s != "" && s != "0"
  | .array _ | .object _ => true

def count (n : Nat) : Value := .number (.ofNat n)

def listOf {α : Type} (value : α → Value) (entries : List α) : Value := .array (entries.map value)

def strings (texts : List String) : Value := listOf .string texts

/-- Entries by name. -/
def byName {α : Type} (value : α → Value) (names : List (String × α)) : Value :=
  .object (names.map fun (name, entry) => (name, value entry))

def byLine {α : Type} (value : α → Value) (lines : List (Nat × α)) : Value :=
  .object (lines.map fun (line, entry) => (toString line, value entry))

end Value

/-- A member put into an object: a key that is there already keeps its place and gets the new value. -/
def setMember (key : String) (value : Value) : List (String × Value) → List (String × Value)
  | [] => [(key, value)]
  | (k, v) :: rest => if k = key then (k, value) :: rest else (k, v) :: setMember key value rest

end StyleAudit.Json
