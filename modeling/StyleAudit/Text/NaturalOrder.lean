import StyleAudit.Number.Decimal
import StyleAudit.Text.Blank
import StyleAudit.Text.LowerCase
/-!
The natural order of names: runs of digits count as the numbers they denote, and letter case does not count. It is the
lexicographic order of what a name is made of, and the same as that of names gone through side by side (`compareNames`).
-/
namespace StyleAudit.Text

/-- A part of a name: the number a run of digits denotes, or a character in lower case. -/
inductive NamePart where
  | number (n : Nat)
  | character (lower : List Char)
  deriving DecidableEq, Repr

def nameParts (name : List Char) : List NamePart :=
  match name with
  | [] => []
  | c :: rest =>
    if c.isDigit then
      .number (Decimal.ofDigits (c :: rest.takeWhile Char.isDigit)) :: nameParts (rest.dropWhile Char.isDigit)
    else .character (lower c) :: nameParts rest
termination_by name.length
decreasing_by
  · exact Nat.lt_succ_of_le (length_dropWhile_le _ _)
  · simp

/-- The order of characters by their numbers. -/
def compareChars (c d : Char) : Ordering := compare c.toNat d.toNat

/-- Numbers are compared by value, and a number has the place of the digits among the characters. -/
def NamePart.compare : NamePart → NamePart → Ordering
  | .number m, .number n => Ord.compare m n
  | .number _, .character d => List.compareLex compareChars ['0'] d
  | .character c, .number _ => List.compareLex compareChars c ['0']
  | .character c, .character d => List.compareLex compareChars c d

/-- The natural order of two names. -/
def naturalOrder (a b : String) : Ordering :=
  List.compareLex NamePart.compare (nameParts a.toList) (nameParts b.toList)

end StyleAudit.Text
