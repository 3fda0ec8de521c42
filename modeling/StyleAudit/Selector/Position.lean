import StyleAudit.Text.Blank
import StyleAudit.Number.Decimal
import StyleAudit.Selector.Basic
import StyleAudit.Selector.Fault
/-!
Reading positions: the words `odd` and `even`, the form An+B, and plain numbers.
-/
namespace StyleAudit.Selector

/-- The white space of selectors. A selector need not come from a normalized source. -/
def isSpace (c : Char) : Bool := c == ' ' || c == '\t' || c == '\n' || c == '\r' || c == '\x0c'

/-- Whether an integer fits in 32 bits. -/
def fits (n : Int) : Bool := -2147483648 ≤ n && n ≤ 2147483647

/-- An integer in digits, with at most one sign before them. -/
def integer? (text : List Char) : Option Int :=
  let (negative, digits) := match text with
    | '-' :: digits => (true, digits)
    | '+' :: digits => (false, digits)
    | digits => (false, digits)
  if digits ≠ [] ∧ digits.all Char.isDigit then
    let magnitude : Int := Decimal.ofDigits digits
    let n := if negative then -magnitude else magnitude
    if fits n then some n else none
  else none

/-- The step in front of an `n`; a sign alone, or nothing, is a step of one. -/
def step? : List Char → Option Int
  | [] | ['+'] => some 1
  | ['-'] => some (-1)
  | text => integer? text

/-- The offset behind an `n`, which has a sign. -/
def offset? : List Char → Option Int
  | [] => some 0
  | c :: rest => if c = '+' ∨ c = '-' then integer? (c :: rest) else none

/-- The position that an argument states, white space and letter case left aside. A plain zero is refused, since the
first element has the position one. -/
def Position.read (argument : List Char) : Except Fault Position :=
  let compact := (argument.filter (!isSpace ·)).map Char.toLower
  let malformed := Fault.malformedPosition (String.ofList (Text.trim argument))
  if compact = "odd".toList then .ok ⟨2, 1⟩
  else if compact = "even".toList then .ok ⟨2, 0⟩
  else match compact.dropWhile (· ≠ 'n') with
    | _ :: behind =>
      match step? (compact.takeWhile (· ≠ 'n')), offset? behind with
      | some step, some offset => .ok ⟨step, offset⟩
      | _, _ => .error malformed
    | [] =>
      match integer? compact with
      | none => .error malformed
      | some 0 => .error .positionZero
      | some offset => .ok ⟨0, offset⟩

end StyleAudit.Selector
