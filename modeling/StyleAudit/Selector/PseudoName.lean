/-!
Names of pseudo-classes and pseudo-elements as they are looked for in a text that need not be a selector: letter case
does not count, and a name is found only as a whole word.
-/
namespace StyleAudit.Selector

/-- A name to look for. A functional name stands in front of a parenthesized argument, any other in front of none. -/
structure PseudoName where
  name : String
  functional : Bool := false
  deriving DecidableEq, Repr

/-- A name in front of an argument. -/
def PseudoName.function (name : String) : PseudoName := ⟨name, true⟩

/-- A name without an argument. -/
def PseudoName.plain (name : String) : PseudoName := ⟨name, false⟩

/-- Whether a text begins with the given characters, letter case left aside. -/
def beginsWith (start text : List Char) : Bool :=
  (text.take start.length).map Char.toLower == start.map Char.toLower

/-- How many characters there are up to the parenthesis that closes `depth` others around it, itself included. -/
def closingSize (depth : Nat) : List Char → Option Nat
  | [] => none
  | c :: rest =>
    if c = '(' then (closingSize (depth + 1) rest).map (1 + ·)
    else if c = ')' then
      match depth with
      | 0 => some 1
      | outer + 1 => (closingSize outer rest).map (1 + ·)
    else (closingSize depth rest).map (1 + ·)

/-- The size of the parenthesized argument that a text begins with. -/
def argument? : List Char → Option Nat
  | '(' :: rest => (closingSize 0 rest).map (1 + ·)
  | _ => none

/-- The ASCII characters of a word. -/
def isWordChar (c : Char) : Bool := c.isAlphanum || c == '-' || c == '_'

namespace PseudoName

/-- The size of the name, with its argument, at the start of a text. -/
def size? (n : PseudoName) (text : List Char) : Option Nat :=
  let length := n.name.length
  if beginsWith n.name.toList text then
    if n.functional then (argument? (text.drop length)).map (length + ·)
    else match text.drop length with
      | [] => some length
      | c :: _ => if isWordChar c || c == '(' then none else some length
  else none

/-- The size of the first of the names that is found at the start of a text. -/
def find? (names : List PseudoName) (text : List Char) : Option Nat := names.findSome? (·.size? text)

end PseudoName

/-- How many colons stand before a pseudo-class or pseudo-element. -/
inductive Colons where
  | one
  | two
  deriving DecidableEq, Repr

/-- The text behind the colons that a text begins with. A single colon is no part of a double one. -/
def Colons.behind? (colons : Colons) (previous : Option Char) (text : List Char) : Option (List Char) :=
  match colons, text with
  | .two, ':' :: ':' :: rest => some rest
  | .two, _ => none
  | .one, ':' :: ':' :: _ => none
  | .one, ':' :: rest => if previous = some ':' then none else some rest
  | .one, _ => none

def Colons.count : Colons → Nat
  | .one => 1
  | .two => 2

end StyleAudit.Selector
