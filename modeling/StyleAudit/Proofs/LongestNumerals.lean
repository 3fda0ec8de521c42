import StyleAudit.Proofs.OrderedNames
import StyleAudit.Proofs.TokenLookahead
/-!
Numerals and the numbers they write. The numeral that a text begins with is the longest of its beginnings that has the form
of a number. Read as a whole it always writes one, so that nothing has to stand for a number that could not be read.
-/
namespace StyleAudit.Css.Numeral

open Selector (IsDigits StopsAt takeWhile_stops)
open Text (dropWhile_stops)

/-! The form of a number. -/

def IsSign (c : Char) : Prop := c = '+' ∨ c = '-'

instance (c : Char) : Decidable (IsSign c) := inferInstanceAs (Decidable (c = '+' ∨ c = '-'))

def IsPowerLetter (c : Char) : Prop := c = 'e' ∨ c = 'E'

/-- A sign, digits, a point with digits behind it, and a letter with a power behind it; each may be missing. -/
structure IsFormed (n : Numeral) : Prop where
  sign : ∀ c ∈ n.sign, IsSign c
  whole : ∀ c ∈ n.whole, c.isDigit = true
  fraction : ∀ digits ∈ n.fraction, IsDigits digits
  letter : ∀ e ∈ n.exponent, IsPowerLetter e.letter
  power : ∀ e ∈ n.exponent, (∀ c ∈ e.sign, IsSign c) ∧ IsDigits e.digits

/-- A text has the form of a number, with at least one digit. -/
def IsNumber (text : List Char) : Prop := ∃ n : Numeral, n.IsFormed ∧ n.text = text ∧ ∃ c ∈ text, c.isDigit = true

/-! A number that is the whole of a text. -/

def integerOf? (text : List Char) : Option Int :=
  let (sign, digits) := takeSign text
  if digits ≠ [] ∧ digits.all Char.isDigit = true then
    some (if sign = some '-' then -(Decimal.ofDigits digits : Int) else Decimal.ofDigits digits)
  else none

def powerOf? : List Char → Option Int
  | [] => some 0
  | _ :: text => integerOf? text

def isPowerLetter (c : Char) : Bool := c == 'e' || c == 'E'

/-- The number that a text writes: up to a letter that begins its power it has at most one sign and at most one point, and
else digits, of which there is one at least. -/
def decimalOf? (text : List Char) : Option Decimal :=
  let (sign, rest) := takeSign text
  let mantissa := rest.takeWhile (!isPowerLetter ·)
  let whole := mantissa.takeWhile (· != '.')
  let fraction := (mantissa.dropWhile (· != '.')).tail
  if whole ++ fraction ≠ [] ∧ (whole ++ fraction).all Char.isDigit = true then
    (powerOf? (rest.dropWhile (!isPowerLetter ·))).map fun power =>
      ⟨sign = some '-', Decimal.ofDigits (whole ++ fraction), power - (fraction.length : Int)⟩
  else none

/-! The characters of a numeral. -/

/-- A numeral without its sign. -/
def body (n : Numeral) : List Char :=
  n.whole ++ n.fraction.elim [] ('.' :: ·) ++ n.exponent.elim [] exponentText

theorem text_eq (n : Numeral) : n.text = n.sign.toList ++ n.body := by
  rw [text, body, List.append_assoc, List.append_assoc, List.append_assoc]

theorem not_isSign_of_isDigit {c : Char} (h : c.isDigit = true) : ¬ IsSign c := by
  rintro (rfl | rfl)
  · exact absurd h (by decide)
  · exact absurd h (by decide)

theorem ne_point_of_isDigit {c : Char} (h : c.isDigit = true) : (c != '.') = true := by
  rw [bne_iff_ne]
  rintro rfl
  exact absurd h (by decide)

theorem isPowerLetter_of_isDigit {c : Char} (h : c.isDigit = true) : isPowerLetter c = false := by
  rw [isPowerLetter, Bool.or_eq_false_iff, beq_eq_false_iff_ne, beq_eq_false_iff_ne]
  constructor
  · rintro rfl
    exact absurd h (by decide)
  · rintro rfl
    exact absurd h (by decide)

theorem IsPowerLetter.other {c : Char} (h : IsPowerLetter c) :
    c.isDigit = false ∧ ¬ IsSign c ∧ c ≠ '.' ∧ isPowerLetter c = true := by
  rcases h with rfl | rfl
  · decide
  · decide

theorem not_isSign_digits {digits : List Char} (h : IsDigits digits) {behind : List Char} {c : Char}
    (first : (digits ++ behind).head? = some c) : ¬ IsSign c := by
  obtain ⟨d, rest, rfl⟩ := List.exists_cons_of_ne_nil h.1
  obtain rfl : d = c := Option.some.inj first
  exact not_isSign_of_isDigit (h.2 d List.mem_cons_self)

theorem IsFormed.not_isSign_head {n : Numeral} (h : n.IsFormed) {c : Char} (first : n.body.head? = some c) :
    ¬ IsSign c := by
  rw [body] at first
  match whole : n.whole with
  | d :: rest =>
      obtain rfl : d = c := by simpa [whole] using first
      exact not_isSign_of_isDigit (h.whole d (whole ▸ List.mem_cons_self))
  | [] =>
      rw [whole, List.nil_append] at first
      match fraction : n.fraction, exponent : n.exponent with
      | some digits, _ =>
          obtain rfl : '.' = c := by simpa [fraction] using first
          decide
      | none, some e =>
          obtain rfl : e.letter = c := by simpa [fraction, exponent, exponentText] using first
          exact (h.letter e exponent).other.2.1
      | none, none => simp [fraction, exponent] at first

/-! Parts with more behind them. -/

theorem takeSign_front {sign : Option Char} {rest : List Char} (h : ∀ c ∈ sign, IsSign c)
    (plain : sign = none → ∀ c, rest.head? = some c → ¬ IsSign c) : takeSign (sign.toList ++ rest) = (sign, rest) := by
  cases sign with
  | some c => exact if_pos (h c rfl)
  | none =>
      cases rest with
      | nil => rfl
      | cons c rest => exact if_neg (plain rfl c rfl)

theorem startsDigit_append {digits : List Char} (h : IsDigits digits) (behind : List Char) :
    startsDigit (digits ++ behind) = true := by
  obtain ⟨c, rest, rfl⟩ := List.exists_cons_of_ne_nil h.1
  exact h.2 c List.mem_cons_self

theorem IsFormed.takeExponent_front {n : Numeral} (h : n.IsFormed) {e : Exponent} (he : n.exponent = some e)
    (behind : List Char) : takeExponent (exponentText e ++ behind) =
      (some { e with digits := e.digits ++ behind.takeWhile Char.isDigit }, behind.dropWhile Char.isDigit) := by
  obtain ⟨sign, digits⟩ := h.power e he
  have letter : e.letter = 'e' ∨ e.letter = 'E' := h.letter e he
  have plain : e.sign = none → ∀ c, (e.digits ++ behind).head? = some c → ¬ IsSign c :=
    fun _ _ first => not_isSign_digits digits first
  rw [exponentText, List.cons_append, List.append_assoc, takeExponent, if_pos letter, takeSign_front sign plain]
  simp only [startsDigit_append digits behind, if_true, List.takeWhile_append_of_pos digits.2,
    List.dropWhile_append_of_pos digits.2]

/-! The longest of the beginnings. -/

/-- What is taken of a text behind the digits of a fraction. -/
def takenPower (rest : List Char) : List Char := (takeExponent rest).1.elim [] exponentText

/-- What is taken of a text behind the digits in front of the point. -/
def takenFraction (rest : List Char) : List Char :=
  (takeFraction rest).1.elim [] ('.' :: ·) ++ takenPower (takeFraction rest).2

theorem body_ofPrefix (input : List Char) : (ofPrefix input).body =
    (takeSign input).2.takeWhile Char.isDigit ++ takenFraction ((takeSign input).2.dropWhile Char.isDigit) :=
  List.append_assoc _ _ _

/-- Digits are taken with what is taken behind them, be it nothing. -/
theorem digits_front {digits tail : List Char} {next : List Char → List Char} (h : ∀ c ∈ digits, c.isDigit = true)
    (stop : StopsAt Char.isDigit tail) (behind : List Char) (more : tail <+: next (tail ++ behind)) :
    digits ++ tail <+: (digits ++ (tail ++ behind)).takeWhile Char.isDigit ++
      next ((digits ++ (tail ++ behind)).dropWhile Char.isDigit) := by
  cases tail with
  | nil =>
      rw [List.append_nil, List.takeWhile_append_of_pos h, List.append_assoc]
      exact List.prefix_append _ _
  | cons c tail =>
      have stop' : StopsAt Char.isDigit (c :: tail ++ behind) := .cons (stop c rfl)
      rw [takeWhile_stops h stop', dropWhile_stops h stop']
      exact (List.prefix_append_right_inj _).mpr more

theorem IsFormed.power_front {n : Numeral} (h : n.IsFormed) (behind : List Char) :
    n.exponent.elim [] exponentText <+: takenPower (n.exponent.elim [] exponentText ++ behind) := by
  cases exponent : n.exponent with
  | none => exact List.nil_prefix
  | some e =>
      rw [Option.elim_some, takenPower, h.takeExponent_front exponent, Option.elim_some]
      simp only [exponentText]
      rw [← List.append_assoc, ← List.cons_append]
      exact List.prefix_append _ _

theorem IsFormed.power_stops {n : Numeral} (h : n.IsFormed) :
    StopsAt Char.isDigit (n.exponent.elim [] exponentText) := by
  cases exponent : n.exponent with
  | none => exact .nil
  | some e => exact .cons (h.letter e exponent).other.1

/-- Behind the digits in front of the point. -/
def rear (n : Numeral) : List Char := n.fraction.elim [] ('.' :: ·) ++ n.exponent.elim [] exponentText

theorem IsFormed.rear_stops {n : Numeral} (h : n.IsFormed) : StopsAt Char.isDigit n.rear := by
  rw [rear]
  cases n.fraction with
  | none => exact h.power_stops
  | some digits => exact .cons (by decide)

theorem IsFormed.rear_front {n : Numeral} (h : n.IsFormed) (behind : List Char) :
    n.rear <+: takenFraction (n.rear ++ behind) := by
  rw [rear]
  cases fraction : n.fraction with
  | none =>
      cases exponent : n.exponent with
      | none => exact List.nil_prefix
      | some e =>
          have more := h.power_front behind
          have point : startsPoint (exponentText e ++ behind) = false := by
            rw [Bool.eq_false_iff]
            intro point
            exact (h.letter e exponent).other.2.2.1 (startsPoint_cons.mp point).1
          rw [exponent] at more
          rw [Option.elim_none, List.nil_append, takenFraction, Option.elim_some, takeFraction_none point]
          exact more
  | some digits =>
      obtain ⟨some, all⟩ := h.fraction digits fraction
      have more := digits_front all h.power_stops behind (h.power_front behind)
      have point : startsPoint ('.' :: (digits ++ (n.exponent.elim [] exponentText ++ behind))) = true :=
        startsDigit_append ⟨some, all⟩ _
      rw [Option.elim_some, List.cons_append, List.cons_append, List.append_assoc, takenFraction,
        takeFraction_point point]
      exact List.cons_prefix_cons.mpr ⟨rfl, more⟩

theorem body_eq (n : Numeral) : n.body = n.whole ++ n.rear := List.append_assoc _ _ _

theorem IsFormed.takeSign_text {n : Numeral} (h : n.IsFormed) (some : n.text ≠ []) (behind : List Char) :
    takeSign (n.text ++ behind) = (n.sign, n.body ++ behind) := by
  rw [text_eq, List.append_assoc]
  refine takeSign_front h.sign ?_
  intro unsigned c first
  rw [text_eq, unsigned, Option.toList_none, List.nil_append] at some
  rw [List.head?_append_of_ne_nil _ some] at first
  exact h.not_isSign_head first

theorem IsFormed.text_front {n : Numeral} (h : n.IsFormed) (some : n.text ≠ []) (behind : List Char) :
    n.text <+: (ofPrefix (n.text ++ behind)).text := by
  have sign : (ofPrefix (n.text ++ behind)).sign = n.sign := congrArg Prod.fst (h.takeSign_text some behind)
  rw [text_eq (ofPrefix _), body_ofPrefix, sign, h.takeSign_text some, text_eq n, body_eq, List.append_assoc]
  exact (List.prefix_append_right_inj _).mpr (digits_front h.whole h.rear_stops behind (h.rear_front behind))

/-! What is taken has the form of a number. -/

theorem isSign_takeSign (input : List Char) : ∀ c ∈ (takeSign input).1, IsSign c := by
  intro c mem
  cases input with
  | nil => cases mem
  | cons d rest =>
      rw [takeSign] at mem
      split at mem
      · next sign =>
          obtain rfl : d = c := Option.some.inj mem
          exact sign
      · cases mem

theorem isDigit_of_mem_takeWhile {rest : List Char} : ∀ c ∈ rest.takeWhile Char.isDigit, c.isDigit = true :=
  fun _ => List.mem_takeWhile_imp

theorem isDigits_takeWhile {rest : List Char} (h : startsDigit rest = true) : IsDigits (rest.takeWhile Char.isDigit) := by
  refine ⟨?_, isDigit_of_mem_takeWhile⟩
  cases rest with
  | nil => cases h
  | cons c rest =>
      have digit : c.isDigit = true := h
      rw [List.takeWhile_cons_of_pos digit]
      exact List.cons_ne_nil _ _

theorem isDigits_takeFraction {rest digits : List Char} (h : digits ∈ (takeFraction rest).1) : IsDigits digits := by
  unfold takeFraction at h
  split at h
  · split at h
    · next digit =>
        obtain rfl := Option.some.inj h
        exact isDigits_takeWhile digit
    · cases h
  · cases h

theorem isFormed_takeExponent {rest : List Char} {e : Exponent} (h : e ∈ (takeExponent rest).1) :
    IsPowerLetter e.letter ∧ (∀ c ∈ e.sign, IsSign c) ∧ IsDigits e.digits := by
  cases rest with
  | nil => cases h
  | cons c rest =>
      rw [takeExponent] at h
      split at h
      · next letter =>
          simp only at h
          split at h
          · next digit =>
              obtain rfl := Option.some.inj h
              exact ⟨letter, isSign_takeSign rest, isDigits_takeWhile digit⟩
          · cases h
      · cases h

theorem isFormed_ofPrefix (input : List Char) : (ofPrefix input).IsFormed where
  sign := isSign_takeSign input
  whole := isDigit_of_mem_takeWhile
  fraction _ := isDigits_takeFraction
  letter _ mem := (isFormed_takeExponent mem).1
  power _ mem := (isFormed_takeExponent mem).2

/-! What a numeral writes. -/

/-- The digits of a numeral in front of its power. -/
def digits (n : Numeral) : List Char := n.whole ++ n.fraction.getD []

theorem mem_text_of_digits {n : Numeral} {c : Char} (h : c ∈ n.digits) : c ∈ n.text := by
  rw [text_eq, body]
  refine List.mem_append_right _ (List.mem_append_left _ ?_)
  rcases List.mem_append.mp h with mem | mem
  · exact List.mem_append_left _ mem
  · refine List.mem_append_right _ ?_
    cases fraction : n.fraction with
    | none =>
        rw [fraction] at mem
        cases mem
    | some places =>
        rw [fraction] at mem
        exact List.mem_cons_of_mem _ mem

theorem IsFormed.all_digits {n : Numeral} (h : n.IsFormed) : ∀ c ∈ n.digits, c.isDigit = true := by
  intro c mem
  rcases List.mem_append.mp mem with mem | mem
  · exact h.whole c mem
  · cases fraction : n.fraction with
    | none =>
        rw [fraction] at mem
        cases mem
    | some places =>
        rw [fraction] at mem
        exact (h.fraction places fraction).2 c mem

theorem IsFormed.powerOf?_text {n : Numeral} (h : n.IsFormed) : powerOf? (n.exponent.elim [] exponentText) =
    some (n.decimal.exponent + (n.fraction.getD []).length) := by
  rw [decimal, Int.sub_add_cancel]
  cases exponent : n.exponent with
  | none => rfl
  | some e =>
      obtain ⟨sign, digits⟩ := h.power e exponent
      have plain : e.sign = none → ∀ c, (e.digits ++ []).head? = some c → ¬ IsSign c :=
        fun _ _ first => not_isSign_digits digits first
      rw [List.append_nil] at plain
      rw [Option.elim_some, exponentText, powerOf?, integerOf?, takeSign_front sign plain]
      exact if_pos ⟨digits.1, List.all_eq_true.mpr digits.2⟩

/-- What stands in front of the power, digits and a point, and the power itself. -/
theorem IsFormed.parts_body {n : Numeral} (h : n.IsFormed) :
    n.body.takeWhile (!isPowerLetter ·) = n.whole ++ n.fraction.elim [] ('.' :: ·) ∧
      n.body.dropWhile (!isPowerLetter ·) = n.exponent.elim [] exponentText := by
  have digit {c : Char} (digit : c.isDigit = true) : (!isPowerLetter c) = true := by
    rw [isPowerLetter_of_isDigit digit]
    rfl
  have inside : ∀ c ∈ n.whole ++ n.fraction.elim [] ('.' :: ·), (!isPowerLetter c) = true := by
    refine List.forall_mem_append.mpr ⟨fun c mem => digit (h.whole c mem), ?_⟩
    cases fraction : n.fraction with
    | none => exact fun _ => nofun
    | some places =>
        exact List.forall_mem_cons.mpr ⟨by decide, fun c mem => digit ((h.fraction places fraction).2 c mem)⟩
  have stop : StopsAt (!isPowerLetter ·) (n.exponent.elim [] exponentText) := by
    cases exponent : n.exponent with
    | none => exact .nil
    | some e =>
        refine .cons ?_
        rw [(h.letter e exponent).other.2.2.2]
        rfl
  exact ⟨takeWhile_stops inside stop, dropWhile_stops inside stop⟩

theorem IsFormed.parts_mantissa {n : Numeral} (h : n.IsFormed) :
    (n.whole ++ n.fraction.elim [] ('.' :: ·)).takeWhile (· != '.') = n.whole ∧
      ((n.whole ++ n.fraction.elim [] ('.' :: ·)).dropWhile (· != '.')).tail = n.fraction.getD [] := by
  have inside : ∀ c ∈ n.whole, (c != '.') = true := fun c mem => ne_point_of_isDigit (h.whole c mem)
  have stop : StopsAt (· != '.') (n.fraction.elim [] ('.' :: ·)) := by
    cases n.fraction with
    | none => exact .nil
    | some places => exact .cons (by decide)
  rw [takeWhile_stops inside stop, dropWhile_stops inside stop]
  refine ⟨rfl, ?_⟩
  cases n.fraction <;> rfl

theorem IsFormed.decimalOf?_text {n : Numeral} (h : n.IsFormed) (someDigit : n.digits ≠ []) :
    decimalOf? n.text = some n.decimal := by
  have someText : n.text ≠ [] := by
    intro none
    rw [text_eq, body, List.append_eq_nil_iff, List.append_eq_nil_iff, List.append_eq_nil_iff] at none
    apply someDigit
    rw [digits, none.2.1.1, List.nil_append]
    cases fraction : n.fraction with
    | none => rfl
    | some places => exact absurd none.2.1.2 (by rw [fraction]; exact List.cons_ne_nil _ _)
  have sign := h.takeSign_text someText []
  rw [List.append_nil, List.append_nil] at sign
  rw [decimalOf?, sign]
  simp only [h.parts_body, h.parts_mantissa, h.powerOf?_text, Option.map_some, Int.add_sub_cancel]
  exact if_pos ⟨someDigit, List.all_eq_true.mpr h.all_digits⟩

/-! How a numeral is flagged. -/

theorem IsFormed.isInteger_iff {n : Numeral} (h : n.IsFormed) :
    n.isInteger = true ↔ '.' ∉ n.text ∧ 'e' ∉ n.text ∧ 'E' ∉ n.text := by
  rw [isInteger, Bool.and_eq_true, Option.isNone_iff_eq_none, Option.isNone_iff_eq_none, text]
  constructor
  · rintro ⟨fraction, exponent⟩
    have absent (c : Char) (unsigned : ¬ IsSign c) (digitless : c.isDigit = false) :
        c ∉ n.sign.toList ++ n.whole ++ n.fraction.elim [] ('.' :: ·) ++ n.exponent.elim [] exponentText := by
      rw [fraction, exponent, Option.elim_none, Option.elim_none, List.append_nil, List.append_nil]
      intro mem
      rcases List.mem_append.mp mem with mem | mem
      · exact unsigned (h.sign c (Option.mem_toList.mp mem))
      · exact absurd (h.whole c mem) (Bool.eq_false_iff.mp digitless)
    exact ⟨absent '.' (by decide) rfl, absent 'e' (by decide) rfl, absent 'E' (by decide) rfl⟩
  · rintro ⟨point, small, large⟩
    constructor
    · cases fraction : n.fraction with
      | none => rfl
      | some places => exact absurd (by simp [fraction]) point
    · cases exponent : n.exponent with
      | none => rfl
      | some e =>
          rcases h.letter e exponent with letter | letter
          · exact absurd (by simp [exponent, exponentText, letter]) small
          · exact absurd (by simp [exponent, exponentText, letter]) large

theorem kind_numeric (n : Numeral) : (numeric n).kind = .integer ↔ n.isInteger = true := by
  rw [numeric]
  split
  · next integer => simp [integer]
  · next other => simp [other]

theorem digits_ofPrefix {input : List Char} (h : starts input = true) : (ofPrefix input).digits ≠ [] := by
  intro none
  rw [digits, List.append_eq_nil_iff] at none
  rcases starts_iff.mp h with whole | fraction
  · exact whole none.1
  · obtain ⟨places, same⟩ := Option.ne_none_iff_exists'.mp fraction
    rw [same] at none
    exact ((isFormed_ofPrefix input).fraction places same).1 none.2

/-- Where a text begins with a number, its numeral is the longest of its beginnings that has the form of a number. What is
held for it is the number that it writes, and zero never stands in for it; and it is an integer just if there is neither a
point nor a power in it. -/
theorem ofPrefix_longest {input : List Char} (h : starts input = true) :
    (ofPrefix input).text <+: input ∧ IsNumber (ofPrefix input).text ∧
      (∀ other, other <+: input → IsNumber other → other <+: (ofPrefix input).text) ∧
      decimalOf? (ofPrefix input).text = some (ofPrefix input).decimal ∧
      (numeric (ofPrefix input)).value =
        ((decimalOf? (ofPrefix input).text).map Decimal.toBinary64).getD (Binary64.zero false) ∧
      ((numeric (ofPrefix input)).kind = .integer ↔
        '.' ∉ (ofPrefix input).text ∧ 'e' ∉ (ofPrefix input).text ∧ 'E' ∉ (ofPrefix input).text) := by
  have formed := isFormed_ofPrefix input
  have someDigit := digits_ofPrefix h
  have reads := formed.decimalOf?_text someDigit
  refine ⟨text_ofPrefix input, ⟨_, formed, rfl, ?_⟩, ?_, reads, ?_, ?_⟩
  · obtain ⟨c, mem⟩ := List.exists_mem_of_ne_nil _ someDigit
    exact ⟨c, mem_text_of_digits mem, formed.all_digits c mem⟩
  · rintro _ ⟨behind, rfl⟩ ⟨n, formed', rfl, c, mem, -⟩
    exact formed'.text_front (List.ne_nil_of_mem mem) behind
  · rw [reads]
    rfl
  · rw [kind_numeric, formed.isInteger_iff]

/-- A letter with a sign but no digit behind it is left. -/
theorem ofPrefix_longest_letter : starts "+1.5e-x".toList = true ∧
    (∀ other, other <+: "+1.5e-x".toList → IsNumber other → other <+: "+1.5".toList) ∧
    decimalOf? "+1.5".toList = some ⟨false, 15, -1⟩ ∧ (numeric (ofPrefix "+1.5e-x".toList)).kind = .number := by
  have begins : starts "+1.5e-x".toList = true := by decide +kernel
  have text : (ofPrefix "+1.5e-x".toList).text = "+1.5".toList := by decide +kernel
  have longest := (ofPrefix_longest begins).2.2.1
  rw [text] at longest
  exact ⟨begins, longest, by decide +kernel, by rfl⟩

end StyleAudit.Css.Numeral
