/-!
Escaped characters: the character that a run of hexadecimal digits stands for.
-/
namespace StyleAudit.Text

/-- The character put in place of one that cannot be written. -/
def replacement : Char := '\uFFFD'

def isHexDigit (c : Char) : Bool :=
  c.isDigit || ('a' ≤ c && c ≤ 'f') || ('A' ≤ c && c ≤ 'F')

def hexValue (c : Char) : Nat :=
  if c.isDigit then c.toNat - '0'.toNat else c.toLower.toNat - 'a'.toNat + 10

/-- The number that hexadecimal digits denote, the first digit the most significant. -/
def hexNumber (digits : List Char) : Nat :=
  digits.foldl (fun n c => 16 * n + hexValue c) 0

/-- The character with the given number; zero, a surrogate and a number past the last character give the
replacement character. -/
def charOfNumber (n : Nat) : Char :=
  if h : n ≠ 0 ∧ n.isValidChar then Char.ofNatAux n h.2 else replacement

@[simp] theorem charOfNumber_zero : charOfNumber 0 = replacement := rfl

/-- The hexadecimal digits of a number, upper case, at least `width` of them. -/
def upperHex (width n : Nat) : List Char :=
  let digits := (Nat.toDigits 16 n).map Char.toUpper
  List.replicate (width - digits.length) '0' ++ digits

end StyleAudit.Text
