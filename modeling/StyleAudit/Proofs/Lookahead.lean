import StyleAudit.Proofs.SelectorWords
import StyleAudit.Css.Lexer
/-!
How far a token looks ahead. Where a token ends depends on what stands behind it, but only in so far as that could go on
with the token; so a token is read as before when what stands behind it gives way to a text that goes on with less.
-/
namespace StyleAudit.Css

open Text (Scan isHexDigit)
open Selector (char_eq_iff isAlpha_iff isDigit_iff)

/-- A point with a digit behind it. -/
def startsPoint : List Char → Bool
  | '.' :: rest => Numeral.startsDigit rest
  | _ => false

/-- Characters that no token goes on with, but for one that opens a comment. -/
def signs : List Char := ['/', ',', '!', ';', '\x7b', '\x7d']

/-- Of what a token could go on with, the first text begins with nothing that the second does not begin with. None is
particular about white space. -/
structure Yields (text other : List Char) : Prop where
  nonempty : other ≠ []
  first : ∀ c, text.head? = some c → c ∈ signs ∨ other.head? = some c ∨ (isSpace c = true ∧ startsSpace other = true)
  escape : startsEscape text = true → startsEscape other = true
  ident : startsIdent text = true → startsIdent other = true
  point : startsPoint text = true → startsPoint other = true
  sign : Numeral.startsDigit (Numeral.takeSign text).2 = true → Numeral.startsDigit (Numeral.takeSign other).2 = true
  closing : ['-', '>'] <+: text → ['-', '>'] <+: other
  opening : ['!', '-', '-'] <+: text → ['!', '-', '-'] <+: other

/-- A character with which no token goes on but white space and the opening of a comment, whatever stands behind it. -/
structure IsStop (c : Char) : Prop where
  name : isNameChar c = false
  other : c ≠ '\\' ∧ c ≠ '.' ∧ c ≠ '+'

/-- A character with which no token goes on, whatever stands behind it. -/
structure IsBreak (c : Char) : Prop extends IsStop c where
  space : isSpace c = false
  bang : c ≠ '!'

theorem isBreak_slash : IsBreak '/' := ⟨⟨by decide, by decide⟩, by decide, by decide⟩

theorem isBreak_paren : IsBreak '(' := ⟨⟨by decide, by decide⟩, by decide, by decide⟩

namespace IsStop
variable {c : Char} (h : IsStop c)
include h

theorem digit : c.isDigit = false := by
  have name := h.name
  simp only [isNameChar, Bool.or_eq_false_iff] at name
  exact name.1.2

theorem dash : c ≠ '-' := by
  rintro rfl
  exact absurd h.name (by decide)

theorem hex : isHexDigit c = false := by
  have name := h.name
  rw [Bool.eq_false_iff, Ne] at name ⊢
  intro hex
  apply name
  simp only [isHexDigit, Bool.or_eq_true, Bool.and_eq_true, decide_eq_true_eq, Char.le_def, UInt32.le_iff_toNat_le] at hex
  simp only [isNameChar, isNameStart, Bool.or_eq_true, isAlpha_iff, isDigit_iff, decide_eq_true_eq] at hex ⊢
  change ((_ ∨ (97 ≤ c.toNat ∧ c.toNat ≤ 102)) ∨ (65 ≤ c.toNat ∧ c.toNat ≤ 70)) at hex
  omega

theorem startsEscape (rest : List Char) : startsEscape (c :: rest) = false := by
  simp [Css.startsEscape, h.other.1]

theorem startsIdent (rest : List Char) : startsIdent (c :: rest) = false := by
  have start : isNameStart c = false := by
    have name := h.name
    simp only [isNameChar, Bool.or_eq_false_iff] at name
    exact name.1.1
  simp [Css.startsIdent, h.dash, start, h.startsEscape]

/-- Nothing is yielded more easily than what no token goes on with. -/
theorem yields {rest other : List Char} (nonempty : other ≠ [])
    (first : c ∈ signs ∨ other.head? = some c ∨ (isSpace c = true ∧ startsSpace other = true))
    (opening : ¬ ['!', '-', '-'] <+: c :: rest) : Yields (c :: rest) other where
  nonempty := nonempty
  first _ same := Option.some.inj same ▸ first
  escape := by rw [h.startsEscape]; exact nofun
  ident := by rw [h.startsIdent]; exact nofun
  point := by
    have point : startsPoint (c :: rest) = false := by
      unfold startsPoint
      split
      · next same => exact absurd (List.cons.inj same).1 h.other.2.1
      · rfl
    rw [point]
    exact nofun
  sign := by
    have unsigned : ¬ (c = '+' ∨ c = '-') := not_or.mpr ⟨h.other.2.2, h.dash⟩
    rw [Numeral.takeSign, if_neg unsigned, Numeral.startsDigit, h.digit]
    exact nofun
  closing before := absurd (List.cons_prefix_cons.mp before).1.symm h.dash
  opening before := absurd before opening

end IsStop

theorem IsBreak.yields {c : Char} (h : IsBreak c) (rest : List Char) {other : List Char} (nonempty : other ≠ [])
    (first : c ∈ signs ∨ other.head? = some c) : Yields (c :: rest) other :=
  h.toIsStop.yields nonempty (first.imp_right .inl) fun opens => h.bang (List.cons_prefix_cons.mp opens).1.symm

/-- A class of characters with none of the signs in it, that one kind of white space is in if and only if another is. -/
def IsCoarse (p : Char → Bool) : Prop :=
  signs.any p = false ∧ p '\n' = p ' ' ∧ p '\t' = p ' '

instance (p : Char → Bool) : Decidable (IsCoarse p) := inferInstanceAs (Decidable (_ ∧ _ ∧ _))

theorem IsCoarse.blank {p : Char → Bool} (h : IsCoarse p) {c : Char} (hc : isSpace c = true) : p c = p ' ' := by
  obtain ⟨-, feed, tab⟩ := h
  simp only [isSpace, Bool.or_eq_true, beq_iff_eq] at hc
  rcases hc with (rfl | rfl) | rfl
  · exact feed
  · exact tab
  · rfl

section
variable {text other : List Char} (h : Yields text other)
include h

/-! Names. -/

/-- Characters of a class go on behind a text only where they did before. -/
theorem Yields.head {p : Char → Bool} (coarse : IsCoarse p) {c : Char} (hc : text.head? = some c) (hp : p c = true) :
    ∃ d, other.head? = some d ∧ p d = true := by
  rcases h.first c hc with sign | same | ⟨space, goesOn⟩
  · exact absurd hp (List.any_eq_false.mp coarse.1 c sign)
  · exact ⟨c, same, hp⟩
  · cases other with
    | nil => cases goesOn
    | cons d rest => exact ⟨d, rfl, (coarse.blank goesOn).trans ((coarse.blank space).symm.trans hp)⟩

theorem Yields.mark {c : Char} (coarse : IsCoarse (· == c)) (first : text.head? = some c) : other.head? = some c := by
  obtain ⟨d, same, mark⟩ := h.head coarse first (beq_self_eq_true c)
  rw [same, eq_of_beq mark]

theorem Yields.takeWhile_take {p : Char → Bool} (coarse : IsCoarse p) (front : List Char) {n : Nat}
    (size : (((front ++ other).take n).takeWhile p).length ≤ front.length) :
    ((front ++ text).take n).takeWhile p = ((front ++ other).take n).takeWhile p := by
  induction front generalizing n with
  | nil =>
      have none : (other.take n).takeWhile p = [] := List.length_eq_zero_iff.mp (Nat.le_zero.mp size)
      rw [List.nil_append, List.nil_append, none]
      cases n with
      | zero => rfl
      | succ n =>
          cases text with
          | nil => rfl
          | cons c rest =>
              cases goesOn : p c with
              | false => rw [List.take_succ_cons, List.takeWhile_cons, goesOn]; rfl
              | true =>
                  obtain ⟨d, first, holds⟩ := h.head coarse rfl goesOn
                  obtain ⟨rest', rfl⟩ := List.head?_eq_some_iff.mp first
                  rw [List.take_succ_cons, List.takeWhile_cons, holds] at none
                  cases none
  | cons c front ih =>
      cases n with
      | zero => rfl
      | succ n =>
          rw [List.cons_append, List.cons_append, List.take_succ_cons, List.take_succ_cons, List.takeWhile_cons,
            List.takeWhile_cons]
          rw [List.cons_append, List.take_succ_cons, List.takeWhile_cons] at size
          split
          · next goesOn =>
              rw [if_pos goesOn, List.length_cons, List.length_cons] at size
              rw [ih (Nat.le_of_succ_le_succ size)]
          · rfl

theorem Yields.escaped {front : List Char} (size : (Css.escaped (front ++ other)).size ≤ front.length) :
    Css.escaped (front ++ text) = Css.escaped (front ++ other) := by
  cases front with
  | nil =>
      obtain ⟨c, rest, rfl⟩ := List.exists_cons_of_ne_nil h.nonempty
      rw [List.nil_append, Css.escaped] at size
      split at size <;> simp at size
  | cons c front =>
      rw [List.cons_append, Css.escaped] at size ⊢
      rw [List.cons_append, Css.escaped]
      split
      · next hex =>
          rw [if_pos hex] at size
          simp only [List.length_cons, Nat.add_sub_cancel] at size ⊢
          have digits := h.takeWhile_take (p := isHexDigit) (by decide) front (n := 5) (by omega)
          rw [digits]
          generalize (((front ++ other).take 5).takeWhile isHexDigit) = run at size ⊢
          -- the white space behind the digits is in the front, unless the digits reach to its end
          have space : startsSpace ((front ++ text).drop run.length) = startsSpace ((front ++ other).drop run.length) := by
            by_cases inside : run.length < front.length
            · obtain ⟨d, more, behind⟩ : ∃ d more, front.drop run.length = d :: more :=
                List.exists_cons_of_ne_nil fun none => by
                  have := List.drop_eq_nil_iff.mp none
                  omega
              rw [List.drop_append_of_le_length (by omega), List.drop_append_of_le_length (by omega), behind]
              rfl
            · have full : run.length = front.length := by
                split at size <;> omega
              rw [full, List.drop_left] at size ⊢
              rw [List.drop_left]
              have none : startsSpace other = false := by
                rw [Bool.eq_false_iff]
                intro space
                rw [space, if_pos rfl] at size
                omega
              rw [none]
              cases text with
              | nil => rfl
              | cons d rest =>
                  rw [Bool.eq_false_iff]
                  intro space
                  obtain ⟨e, first, space⟩ := h.head (p := isSpace) (by decide) rfl space
                  obtain ⟨rest', rfl⟩ := List.head?_eq_some_iff.mp first
                  exact absurd space (by simpa [startsSpace] using none)
          rw [space]
      · rfl

theorem Yields.takeWhile {p : Char → Bool} (coarse : IsCoarse p) {front : List Char}
    (size : ((front ++ other).takeWhile p).length ≤ front.length) :
    (front ++ text).takeWhile p = (front ++ other).takeWhile p := by
  have long := h.takeWhile_take coarse front (n := (front ++ text).length + (front ++ other).length)
  rw [List.take_of_length_le (Nat.le_add_right _ _), List.take_of_length_le (Nat.le_add_left _ _)] at long
  exact long size

/-- A run of characters of a class that ends in the front ends there before any text that yields. -/
theorem Yields.dropWhile {p : Char → Bool} (coarse : IsCoarse p) {front front' : List Char}
    (rest : (front ++ other).dropWhile p = front' ++ other) :
    (front ++ text).takeWhile p = (front ++ other).takeWhile p ∧ (front ++ text).dropWhile p = front' ++ text := by
  have whole := List.takeWhile_append_dropWhile (p := p) (l := front ++ other)
  rw [rest, ← List.append_assoc] at whole
  have split := List.append_cancel_right whole
  have short : ((front ++ other).takeWhile p).length ≤ front.length := by
    have := congrArg List.length split
    rw [List.length_append] at this
    omega
  have same := h.takeWhile coarse short
  refine ⟨same, ?_⟩
  have again := List.takeWhile_append_dropWhile (p := p) (l := front ++ text)
  rw [same] at again
  exact List.append_cancel_left (again.trans (by rw [← List.append_assoc, split]))

theorem Yields.startsName (starts : startsName text = true) : startsName other = true := by
  cases text with
  | nil => cases starts
  | cons c rest =>
      rcases (Bool.or_eq_true _ _).mp starts with letter | escape
      · obtain ⟨d, first, letter⟩ := h.head (p := isNameChar) (by decide) rfl letter
        obtain ⟨rest', rfl⟩ := List.head?_eq_some_iff.mp first
        rw [Css.startsName, letter, Bool.true_or]
      · have escape := h.escape escape
        cases other with
        | nil => cases escape
        | cons d rest' => rw [Css.startsName, escape, Bool.or_true]

end

theorem escaped_size_pos {text : List Char} (h : text ≠ []) : 0 < (escaped text).size := by
  cases text with
  | nil => exact absurd rfl h
  | cons c rest =>
      rw [escaped]
      split
      · simp only [List.length_cons]
        omega
      · exact Nat.one_pos

theorem startsName_iff_size {text : List Char} : startsName text = true ↔ 0 < (name text).size := by
  cases text with
  | nil => simp [startsName, name]
  | cons c rest =>
      rw [startsName, Bool.or_eq_true]
      constructor
      · exact name_size_pos
      · intro some
        by_contra neither
        rw [not_or] at neither
        rw [name, if_neg neither.1, if_neg neither.2] at some
        exact absurd some (Nat.lt_irrefl 0)

theorem name_of_not_startsName {text : List Char} (h : startsName text = false) : name text = ⟨[], 0⟩ := by
  cases text with
  | nil => rw [name]
  | cons c rest =>
      rw [startsName, Bool.or_eq_false_iff] at h
      rw [name, h.1, h.2, if_neg Bool.false_ne_true, if_neg Bool.false_ne_true]

theorem startsIdent_dash_eq (text : List Char) :
    startsIdent ('-' :: text) = ((text.head?.any fun c => isNameStart c || c == '-') || startsEscape text) := by
  cases text <;> rfl

theorem startsIdent_dash {text : List Char} (h : startsName text = false) : startsIdent ('-' :: text) = false := by
  cases text with
  | nil => rfl
  | cons c rest =>
      simp only [startsName, isNameChar, Bool.or_eq_false_iff] at h
      rw [startsIdent_dash_eq, List.head?_cons, Option.any_some, Bool.or_eq_false_iff, Bool.or_eq_false_iff]
      exact ⟨⟨h.1.1.1, h.1.2⟩, h.2⟩

theorem startsIdent_of_ne_dash {c : Char} (h : c ≠ '-') (rest : List Char) :
    startsIdent (c :: rest) = (isNameStart c || startsEscape (c :: rest)) := by
  unfold startsIdent
  split
  · next same => cases same
  · next same => exact absurd (List.cons.inj same).1 h
  · next same => rw [← same, (List.cons.inj same).1]

/-- A string of which nothing can be read is a bad one, and its line ends here. -/
theorem string_stuck {quote c : Char} {rest : List Char} (h : (string quote (c :: rest)).size = 0) :
    c = '\n' ∧ ∀ rest', string quote (c :: rest') = ⟨none, 0⟩ := by
  have ends : ¬ c = quote ∧ c = '\n' := by
    rw [string.eq_def] at h
    simp only at h
    split at h
    · cases h
    · next goesOn =>
        refine ⟨goesOn, ?_⟩
        by_contra plain
        rw [if_neg plain] at h
        split at h
        · split at h
          · cases h
          · split at h <;> simp at h
        · simp at h
  exact ⟨ends.2, fun rest' => by rw [string.eq_def]; simp only [if_neg ends.1, if_pos ends.2]⟩

theorem badUrlRest_pos {text : List Char} (h : text ≠ []) : 0 < badUrlRest text := by
  cases text with
  | nil => exact absurd rfl h
  | cons c rest =>
      rw [badUrlRest]
      split
      · exact Nat.one_pos
      · split <;> omega

theorem urlBody_size_pos {text : List Char} (h : text ≠ []) : 0 < (urlBody text).size := by
  cases text with
  | nil => exact absurd rfl h
  | cons c rest =>
      rw [urlBody.eq_def]
      simp only
      split
      · exact Nat.one_pos
      · split
        · split
          · simp only
            omega
          · split <;> simp only <;> omega
        · split
          · simp only
            omega
          · split
            · split <;> simp only [Scan.behind_size] <;> omega
            · simp only [Scan.behind_size]
              omega

/-- A run of characters of a class that is no longer than the front ends in it. -/
theorem dropWhile_inside {p : Char → Bool} {front behind : List Char}
    (size : ((front ++ behind).takeWhile p).length ≤ front.length) :
    ∃ front', (front ++ behind).dropWhile p = front' ++ behind ∧
      front.length = ((front ++ behind).takeWhile p).length + front'.length := by
  refine ⟨front.drop ((front ++ behind).takeWhile p).length, ?_, ?_⟩
  · rw [← List.drop_append_of_le_length size]
    conv => rhs; arg 2; rw [← List.takeWhile_append_dropWhile (p := p) (l := front ++ behind)]
    rw [List.drop_left]
  · rw [List.length_drop]
    omega

theorem name_size_of_startsIdent {text : List Char} (h : startsIdent text = true) : 0 < (name text).size := by
  cases text with
  | nil => cases h
  | cons c rest => exact name_size_pos (starts_of_startsIdent h)

section
variable {text other : List Char} (h : Yields text other)
include h

/-- A name that ends where the front does ends there before any text that yields. -/
theorem Yields.name {front : List Char} (size : (Css.name (front ++ other)).size = front.length) :
    Css.name (front ++ text) = Css.name (front ++ other) := by
  induction length : front.length using Nat.strong_induction_on generalizing front with
  | _ n ih =>
    cases front with
    | nil =>
        have stop : Css.startsName other ≠ true := fun starts =>
          absurd (startsName_iff_size.mp starts) (Nat.not_lt.mpr (Nat.le_of_eq size))
        have stop' : Css.startsName text ≠ true := fun starts => stop (h.startsName starts)
        rw [List.nil_append, List.nil_append, name_of_not_startsName (Bool.eq_false_iff.mpr stop),
          name_of_not_startsName (Bool.eq_false_iff.mpr stop')]
    | cons c front =>
        rw [List.cons_append, Css.name] at size ⊢
        rw [List.cons_append, Css.name]
        rw [List.length_cons] at size length
        by_cases letter : isNameChar c
        · rw [if_pos letter, Scan.behind_size] at size
          rw [if_pos letter, if_pos letter, ih front.length (by omega) (by omega) rfl]
        · rw [if_neg letter] at size ⊢
          rw [if_neg letter]
          by_cases escape : startsEscape (c :: (front ++ other))
          · rw [if_pos escape] at size ⊢
            simp only [Scan.behind_size] at size
            cases front with
            | nil =>
                have := escaped_size_pos h.nonempty
                simp only [List.nil_append, List.length_nil] at size
                omega
            | cons d front =>
                have inside : (Css.escaped (d :: front ++ other)).size ≤ (d :: front).length := by omega
                have same := h.escaped inside
                rw [if_pos (show startsEscape (c :: (d :: front ++ text)) = true from escape)]
                simp only [same]
                rw [List.drop_append_of_le_length inside] at size ⊢
                have left := List.length_drop (i := (Css.escaped (d :: front ++ other)).size) (l := d :: front)
                rw [List.drop_append_of_le_length inside, ih _ (by omega) (by omega) rfl]
          · rw [if_neg escape] at size
            cases size

/-- Inside a name it is the name itself that shows where an escape begins. -/
theorem Yields.startsEscape_iff {front : List Char} (some : front ≠ [])
    (size : (Css.name (front ++ other)).size = front.length) :
    startsEscape (front ++ text) = startsEscape (front ++ other) := by
  match front with
  | [] => exact absurd rfl some
  | _ :: _ :: _ => rfl
  | [c] =>
      -- an escape would take the name beyond the one character
      have none : startsEscape ([c] ++ other) = false := by
        rw [Bool.eq_false_iff]
        intro escape
        have slash : c = '\\' := eq_of_beq (Bool.and_eq_true_iff.mp escape).1
        have letter : isNameChar c = false := by rw [slash]; decide
        have := escaped_size_pos h.nonempty
        rw [List.singleton_append] at size escape
        rw [Css.name, letter, if_neg Bool.false_ne_true, if_pos escape] at size
        simp only [Scan.behind_size, List.length_singleton] at size
        omega
      have plain : c ≠ '\\' := by
        rintro rfl
        rw [List.singleton_append] at size none
        rw [Css.name, none, if_neg (by decide), if_neg Bool.false_ne_true] at size
        cases size
      rw [none, List.singleton_append, startsEscape, beq_eq_false_iff_ne.mpr plain, Bool.false_and]

theorem Yields.startsIdent_iff {front : List Char} (some : front ≠ [])
    (size : (Css.name (front ++ other)).size = front.length) :
    startsIdent (front ++ text) = startsIdent (front ++ other) := by
  cases front with
  | nil => exact absurd rfl some
  | cons c front =>
      have escape := h.startsEscape_iff some size
      by_cases dash : c = '-'
      · subst dash
        rw [List.cons_append, Css.name, if_pos (by decide), Scan.behind_size, List.length_cons] at size
        have size : (Css.name (front ++ other)).size = front.length := by omega
        cases front with
        | nil =>
            have stop : Css.startsName other ≠ true := fun starts =>
              absurd (startsName_iff_size.mp starts) (Nat.not_lt.mpr (Nat.le_of_eq size))
            have stop' : Css.startsName text ≠ true := fun starts => stop (h.startsName starts)
            rw [List.singleton_append, List.singleton_append, startsIdent_dash (Bool.eq_false_iff.mpr stop),
              startsIdent_dash (Bool.eq_false_iff.mpr stop')]
        | cons d front =>
            have escape := h.startsEscape_iff (List.cons_ne_nil d front) size
            simp only [List.cons_append, startsIdent] at escape ⊢
            rw [escape]
      · rw [List.cons_append, List.cons_append] at escape ⊢
        rw [startsIdent_of_ne_dash dash, startsIdent_of_ne_dash dash, escape]

/-! Strings and addresses. -/

theorem Yields.string {quote : Char} {front : List Char} (size : (Css.string quote (front ++ other)).size = front.length)
    (bad : (Css.string quote (front ++ other)).value = none → text.head? = other.head?) :
    Css.string quote (front ++ text) = Css.string quote (front ++ other) := by
  induction length : front.length using Nat.strong_induction_on generalizing front with
  | _ n ih =>
    cases front with
    | nil =>
        obtain ⟨c, rest, rfl⟩ := List.exists_cons_of_ne_nil h.nonempty
        have stuck := (string_stuck size).2
        rw [List.nil_append, stuck] at bad
        obtain ⟨rest', rfl⟩ := List.head?_eq_some_iff.mp (bad rfl)
        rw [List.nil_append, List.nil_append, stuck, stuck]
    | cons c front =>
        rw [List.cons_append, Css.string.eq_def] at size bad ⊢
        rw [List.cons_append, Css.string.eq_def]
        rw [List.length_cons] at size length
        simp only at size bad ⊢
        split
        · rfl
        next open_ =>
        rw [if_neg open_] at size bad
        split
        · rfl
        next goesOn =>
        rw [if_neg goesOn] at size bad
        split
        · next slash =>
            rw [if_pos slash] at size bad
            cases front with
            | nil =>
                obtain ⟨d, rest, rfl⟩ := List.exists_cons_of_ne_nil h.nonempty
                have := escaped_size_pos h.nonempty
                simp only [List.nil_append] at size
                split at size <;> simp only [Scan.behind_size, List.length_nil] at size <;> omega
            | cons d front =>
                simp only [List.cons_append] at size bad ⊢
                rw [List.length_cons] at size length
                split
                · next ends =>
                    rw [if_pos ends] at size bad
                    simp only [Scan.behind_size, Scan.behind_value, id_eq] at size bad
                    rw [ih front.length (by omega) (by omega) bad rfl]
                · next inside =>
                    rw [if_neg inside] at size bad
                    simp only [Scan.behind_size, Scan.behind_value, Option.map_eq_none_iff, ← List.cons_append] at size bad
                    have inside : (Css.escaped (d :: front ++ other)).size ≤ (d :: front).length := by
                      rw [List.length_cons]
                      omega
                    have left := List.length_drop (i := (Css.escaped (d :: front ++ other)).size) (l := d :: front)
                    rw [List.length_cons] at left
                    rw [← List.cons_append, ← List.cons_append, h.escaped inside]
                    rw [List.drop_append_of_le_length inside] at size bad ⊢
                    rw [List.drop_append_of_le_length inside, ih _ (by omega) (by omega) bad rfl]
        · next plain =>
            rw [if_neg plain] at size bad
            simp only [Scan.behind_size, Scan.behind_value, Option.map_eq_none_iff] at size bad
            rw [ih front.length (by omega) (by omega) bad rfl]

theorem Yields.badUrlRest {front : List Char} (size : Css.badUrlRest (front ++ other) = front.length) :
    Css.badUrlRest (front ++ text) = front.length := by
  induction length : front.length using Nat.strong_induction_on generalizing front with
  | _ n ih =>
    have goesOn := badUrlRest_pos h.nonempty
    match front with
    | [] =>
        rw [List.nil_append, List.length_nil] at size
        omega
    | [c] =>
        have size : Css.badUrlRest (c :: other) = 1 := size
        rw [Css.badUrlRest] at size
        split at size
        · next close => rw [List.singleton_append, Css.badUrlRest, if_pos close, ← length, List.length_singleton]
        · split at size
          · have := escaped_size_pos h.nonempty
            omega
          · omega
    | c :: d :: front =>
        have size : Css.badUrlRest (c :: (d :: front ++ other)) = (d :: front).length + 1 := size
        have length : (d :: front).length + 1 = n := length
        rw [List.cons_append, Css.badUrlRest]
        rw [Css.badUrlRest] at size
        split at size
        · next close => rw [if_pos close, ← length, ← size]
        · next close =>
            rw [if_neg close]
            split at size
            · next escape =>
                have inside : (Css.escaped (d :: front ++ other)).size ≤ (d :: front).length := by omega
                have left := List.length_drop (i := (Css.escaped (d :: front ++ other)).size) (l := d :: front)
                rw [if_pos (show startsEscape (c :: (d :: front ++ text)) = true from escape), h.escaped inside]
                rw [List.drop_append_of_le_length inside] at size ⊢
                rw [ih _ (by omega) (by omega) rfl]
                omega
            · next escape =>
                rw [if_neg (show ¬ startsEscape (c :: (d :: front ++ text)) = true from escape),
                  ih (d :: front).length (by omega) (by omega) rfl]
                omega

/-- White space in an address, up to the parenthesis or to what makes the address a bad one. -/
theorem Yields.urlBody_blank {c : Char} {front : List Char} (close : c ≠ ')') (space : isSpace c = true)
    (size : (Css.urlBody (c :: (front ++ other))).size = front.length + 1) :
    Css.urlBody (c :: (front ++ text)) = Css.urlBody (c :: (front ++ other)) := by
  rw [Css.urlBody.eq_def (c :: (front ++ text))]
  rw [Css.urlBody.eq_def (c :: (front ++ other))] at size ⊢
  simp only [if_neg close, if_pos space] at size ⊢
  have short : ((front ++ other).takeWhile isSpace).length ≤ front.length := by
    change spaces (front ++ other) ≤ front.length
    split at size
    · simp only at size
      omega
    · split at size <;> simp only at size <;> omega
  obtain ⟨front', rest, length'⟩ := dropWhile_inside short
  obtain ⟨run, rest'⟩ := h.dropWhile (by decide) rest
  rw [rest] at size ⊢
  rw [rest', spaces, run, ← spaces]
  rw [← spaces] at length'
  cases front' with
  | nil =>
      obtain ⟨d, more, rfl⟩ := List.exists_cons_of_ne_nil h.nonempty
      have := badUrlRest_pos h.nonempty
      simp only [List.nil_append, List.length_nil] at size length'
      split at size <;> simp only at size <;> omega
  | cons d front' =>
      simp only [List.cons_append] at size ⊢
      split
      · rfl
      · next bad =>
          rw [if_neg bad] at size
          simp only at size
          have size : Css.badUrlRest (d :: front' ++ other) = (d :: front').length := by
            rw [List.cons_append]
            omega
          rw [← List.cons_append, ← List.cons_append, h.badUrlRest size, size]

theorem Yields.urlBody {front : List Char} (size : (Css.urlBody (front ++ other)).size = front.length) :
    Css.urlBody (front ++ text) = Css.urlBody (front ++ other) := by
  induction length : front.length using Nat.strong_induction_on generalizing front with
  | _ n ih =>
    cases front with
    | nil =>
        have := urlBody_size_pos h.nonempty
        rw [List.nil_append, List.length_nil] at size
        omega
    | cons c front =>
        rw [List.cons_append] at size ⊢
        rw [List.cons_append]
        rw [List.length_cons] at size length
        by_cases blank : c ≠ ')' ∧ isSpace c = true
        · exact h.urlBody_blank blank.1 blank.2 size
        rw [Css.urlBody.eq_def] at size ⊢
        rw [Css.urlBody.eq_def]
        simp only at size ⊢
        split
        · rfl
        next close =>
        rw [if_neg close] at size
        split
        · next space => exact (blank ⟨close, space⟩).elim
        next inside =>
        rw [if_neg inside] at size
        split
        · next bad =>
            rw [if_pos bad] at size
            have size : Css.badUrlRest (front ++ other) = front.length := by
              simp only at size
              omega
            rw [h.badUrlRest size, size]
        next plain =>
        rw [if_neg plain] at size
        split
        · next slash =>
            rw [if_pos slash] at size
            have more : front ≠ [] := by
              rintro rfl
              have := escaped_size_pos h.nonempty
              have := badUrlRest_pos h.nonempty
              rw [List.nil_append] at size
              split at size <;> simp only [Scan.behind_size, List.length_nil] at size <;> omega
            obtain ⟨d, front, rfl⟩ := List.exists_cons_of_ne_nil more
            simp only [show escapable (d :: front ++ text) = escapable (d :: front ++ other) from rfl]
            split
            · next escape =>
                rw [if_pos escape] at size
                simp only [Scan.behind_size] at size
                have inside : (Css.escaped (d :: front ++ other)).size ≤ (d :: front).length := by omega
                have left := List.length_drop (i := (Css.escaped (d :: front ++ other)).size) (l := d :: front)
                rw [h.escaped inside]
                rw [List.drop_append_of_le_length inside] at size ⊢
                rw [List.drop_append_of_le_length inside, ih _ (by omega) (by omega) rfl]
            · next bad =>
                rw [if_neg bad] at size
                have size : Css.badUrlRest (d :: front ++ other) = (d :: front).length := by
                  simp only at size
                  omega
                rw [h.badUrlRest size, size]
        · next plain =>
            rw [if_neg plain] at size
            simp only [Scan.behind_size] at size
            rw [ih front.length (by omega) (by omega) rfl]

end
end StyleAudit.Css
