import StyleAudit.Number.Decimal
/-!
Numerals: the longest run of characters that writes a number, taken apart into its sign, digits and exponent.
-/
namespace StyleAudit.Css

/-- The power of ten of a numeral: its letter, its sign if it has one, and its digits. -/
structure Exponent where
  letter : Char
  sign : Option Char
  digits : List Char
  deriving DecidableEq, Repr

/-- The parts of a numeral. A fraction is the digits behind a point. -/
structure Numeral where
  sign : Option Char
  whole : List Char
  fraction : Option (List Char)
  exponent : Option Exponent
  deriving DecidableEq, Repr

namespace Numeral

def exponentText (e : Exponent) : List Char :=
  e.letter :: (e.sign.toList ++ e.digits)

def text (n : Numeral) : List Char :=
  n.sign.toList ++ n.whole ++ (n.fraction.elim [] ('.' :: ·)) ++ n.exponent.elim [] exponentText

/-- A numeral is an integer exactly when it has neither a fraction nor an exponent. -/
def isInteger (n : Numeral) : Bool := n.fraction.isNone && n.exponent.isNone

def decimal (n : Numeral) : Decimal :=
  let fraction := n.fraction.getD []
  let power : Int := match n.exponent with
    | none => 0
    | some e => if e.sign = some '-' then -(Decimal.ofDigits e.digits : Int) else Decimal.ofDigits e.digits
  { negative := n.sign = some '-'
    coefficient := Decimal.ofDigits (n.whole ++ fraction)
    exponent := power - (fraction.length : Int) }

def takeSign : List Char → Option Char × List Char
  | [] => (none, [])
  | c :: rest => if c = '+' ∨ c = '-' then (some c, rest) else (none, c :: rest)

def startsDigit : List Char → Bool
  | [] => false
  | c :: _ => c.isDigit

/-- A point counts only if a digit follows it. -/
def takeFraction : List Char → Option (List Char) × List Char
  | '.' :: rest =>
    if startsDigit rest then (some (rest.takeWhile Char.isDigit), rest.dropWhile Char.isDigit)
    else (none, '.' :: rest)
  | rest => (none, rest)

/-- A letter `e` counts only if a digit follows it, with or without a sign between. -/
def takeExponent : List Char → Option Exponent × List Char
  | [] => (none, [])
  | c :: rest =>
    if c = 'e' ∨ c = 'E' then
      let (sign, digits) := takeSign rest
      if startsDigit digits then
        (some ⟨c, sign, digits.takeWhile Char.isDigit⟩, digits.dropWhile Char.isDigit)
      else (none, c :: rest)
    else (none, c :: rest)

def starts (text : List Char) : Bool :=
  match (takeSign text).2 with
  | '.' :: rest => startsDigit rest
  | rest => startsDigit rest

/-- The numeral that a text begins with. -/
def ofPrefix (input : List Char) : Numeral :=
  let (sign, rest) := takeSign input
  let whole := rest.takeWhile Char.isDigit
  let (fraction, rest) := takeFraction (rest.dropWhile Char.isDigit)
  ⟨sign, whole, fraction, (takeExponent rest).1⟩

theorem takeSign_append (input : List Char) : (takeSign input).1.toList ++ (takeSign input).2 = input := by
  cases input with
  | nil => rfl
  | cons c rest => by_cases h : c = '+' ∨ c = '-' <;> simp [takeSign, h]

theorem takeFraction_append (input : List Char) :
    (takeFraction input).1.elim [] ('.' :: ·) ++ (takeFraction input).2 = input := by
  unfold takeFraction
  split
  · next rest => by_cases h : startsDigit rest <;> simp [h, List.takeWhile_append_dropWhile]
  · rfl

theorem takeExponent_append (input : List Char) :
    (takeExponent input).1.elim [] exponentText ++ (takeExponent input).2 = input := by
  cases input with
  | nil => rfl
  | cons c rest =>
    by_cases h : c = 'e' ∨ c = 'E'
    · have s := takeSign_append rest
      by_cases d : startsDigit (takeSign rest).2
      · simp only [takeExponent, h, if_true, d, Option.elim, exponentText, List.cons_append,
          List.append_assoc, List.takeWhile_append_dropWhile, s]
      · simp [takeExponent, h, d]
    · simp [takeExponent, h]

/-- A numeral is the beginning of the text it was taken from. -/
theorem text_ofPrefix (input : List Char) : (ofPrefix input).text <+: input := by
  have s := takeSign_append input
  have f := takeFraction_append ((takeSign input).2.dropWhile Char.isDigit)
  have e := takeExponent_append (takeFraction ((takeSign input).2.dropWhile Char.isDigit)).2
  refine ⟨(takeExponent (takeFraction ((takeSign input).2.dropWhile Char.isDigit)).2).2, ?_⟩
  simp only [ofPrefix, text, List.append_assoc]
  rw [e, f, List.takeWhile_append_dropWhile, s]

theorem takeSign_of_none {input : List Char} (h : (takeSign input).1 = none) : (takeSign input).2 = input := by
  have s := takeSign_append input
  rwa [h, Option.toList_none, List.nil_append] at s

/-- A text that begins with a number has a numeral of at least one character. -/
theorem length_text_ofPrefix_pos {input : List Char} (h : starts input) : 0 < (ofPrefix input).text.length := by
  simp only [ofPrefix, text, List.length_append]
  cases sign : (takeSign input).1 with
  | some c => simp only [Option.toList_some, List.length_singleton]; omega
  | none =>
    simp only [starts, takeSign_of_none sign] at h ⊢
    split at h
    · next rest =>
      rw [show List.dropWhile Char.isDigit ('.' :: rest) = '.' :: rest from rfl, takeFraction, if_pos h]
      simp only [Option.elim, List.length_cons]; omega
    · next rest _ =>
      cases input with
      | nil => simp [startsDigit] at h
      | cons c rest => simp only [startsDigit] at h; simp only [List.takeWhile_cons, h, if_true, List.length_cons]; omega

end Numeral
end StyleAudit.Css
