import StyleAudit.Proofs.Characters
import StyleAudit.Proofs.ExtractedTexts
/-!
Names read twice. Tokens and selectors are read by scanners of their own; in a normal source without invisible
characters, and with no backslash at its end, the two tell the same places where a name begins, and read the same names.
-/
namespace StyleAudit

open Text (Scan)

/-- A text in which lines end in line feeds alone. -/
def IsNormal (text : List Char) : Prop := ∀ c ∈ text, c ≠ '\r' ∧ c ≠ '\x0c'

theorem isNormal_normalize (source : List Char) : IsNormal (Css.normalize source) := by
  refine fun c mem => ⟨?_, ?_⟩ <;>
  · rintro rfl
    exact absurd (Css.normalChar_of_mem mem) (by decide)

namespace IsNormal

variable {c : Char} {text : List Char}

theorem drop (h : IsNormal text) (n : Nat) : IsNormal (text.drop n) := fun c mem => h c (List.mem_of_mem_drop mem)

theorem isSpace (h : IsNormal (c :: text)) : Selector.isSpace c = Css.isSpace c := by
  obtain ⟨carriage, feed⟩ := h c List.mem_cons_self
  have carriage : (c == '\r') = false := beq_false_of_ne carriage
  have feed : (c == '\x0c') = false := beq_false_of_ne feed
  rw [Selector.isSpace, Css.isSpace, carriage, feed, Bool.or_false, Bool.or_false, Bool.or_assoc, Bool.or_comm,
    Bool.or_comm (c == '\t')]

/-- The white space character that belongs to an escape. -/
theorem startsSpace (h : IsNormal text) :
    (match text with | [] => 0 | c :: _ => if Selector.isSpace c then 1 else 0) = if Css.startsSpace text then 1 else 0 := by
  cases text with
  | nil => rfl
  | cons c rest => rw [Css.startsSpace, ← h.isSpace]

/-- Six digits at most are the first one and five more. -/
theorem escaped (h : IsNormal text) : Selector.escaped text = Css.escaped text := by
  cases text with
  | nil => rfl
  | cons c rest =>
      rw [Selector.escaped, Css.escaped, List.take_succ_cons, List.takeWhile_cons]
      by_cases digit : Text.isHexDigit c = true
      · rw [if_pos digit, if_pos digit, if_neg (List.cons_ne_nil _ _)]
        exact congrArg (Scan.mk _ <| _ + ·) (h.drop _).startsSpace
      · rw [if_neg digit, if_neg digit, if_pos rfl]

end IsNormal

/-- A text in which no character is one that only one of the two scanners knows, and in which each backslash has
a character behind it. -/
structure IsCommon (text : List Char) : Prop where
  visible : ∀ c ∈ text, Selector.isZeroWidth c = false
  normal : ∀ c ∈ text, c ≠ '\r' ∧ c ≠ '\x0c'
  complete : text.getLast? ≠ some '\\'

namespace IsCommon

variable {c : Char} {text : List Char}

theorem drop (h : IsCommon text) (n : Nat) : IsCommon (text.drop n) := by
  refine ⟨fun c mem => h.visible c (List.mem_of_mem_drop mem), IsNormal.drop h.normal n, ?_⟩
  rw [List.getLast?_drop]
  split
  · exact (Option.some_ne_none _).symm
  · exact h.complete

theorem tail (h : IsCommon (c :: text)) : IsCommon text := h.drop 1

theorem isNameStart (h : IsCommon (c :: text)) : Selector.isNameStart c = Css.isNameStart c := by
  rw [Selector.isNameStart, h.visible c List.mem_cons_self, Bool.not_false, Bool.and_true, Css.isNameStart]

theorem isNameChar (h : IsCommon (c :: text)) : Selector.isNameChar c = Css.isNameChar c := by
  rw [Selector.isNameChar, Css.isNameChar, h.isNameStart]

theorem startsEscape (h : IsCommon text) : Selector.startsEscape text = Css.startsEscape text := by
  rcases text with _ | ⟨c, _ | ⟨d, rest⟩⟩
  · rfl
  · have other : (c == '\\') = false := beq_false_of_ne fun same => h.complete (by rw [same]; rfl)
    rw [Css.startsEscape, other, Bool.false_and, Selector.startsEscape]
    rintro _ _ ⟨⟩
  · by_cases backslash : c = '\\'
    · rw [backslash, Selector.startsEscape, Css.startsEscape, Css.escapable, beq_self_eq_true, Bool.true_and]
    · rw [Css.startsEscape, beq_false_of_ne backslash, Bool.false_and, Selector.startsEscape]
      rintro _ _ ⟨rfl, -⟩
      exact backslash rfl

theorem startsIdent (h : IsCommon text) : Selector.startsIdent text = Css.startsIdent text := by
  cases text with
  | nil => rfl
  | cons c rest =>
      rw [Selector.startsIdent.eq_def]
      by_cases dash : c = '-'
      · subst dash
        rw [Css.startsIdent_dash_eq, ← h.tail.startsEscape]
        cases rest with
        | nil => rfl
        | cons d more =>
            rw [List.head?_cons, Option.any_some, ← h.tail.isNameStart]
            rfl
      · rw [Css.startsIdent_of_ne_dash dash, ← h.isNameStart, ← h.startsEscape]
        exact if_neg dash

theorem nameChars (h : IsCommon text) : Selector.nameChars text = Css.name text := by
  induction text using Css.name.induct with
  | case1 => rw [Selector.nameChars, Css.name]
  | case2 c rest char ih =>
      rw [Selector.nameChars, Css.name, h.isNameChar, if_pos char, if_pos char, ih h.tail]
  | case3 c rest char escape e ih =>
      rw [Selector.nameChars, Css.name, h.isNameChar, if_neg char, if_neg char, h.startsEscape, if_pos escape,
        if_pos escape, IsNormal.escaped h.tail.normal]
      exact congrArg (Scan.behind (1 + e.size) (e.value :: ·)) (ih (h.tail.drop _))
  | case4 c rest char escape =>
      rw [Selector.nameChars, Css.name, h.isNameChar, if_neg char, if_neg char, h.startsEscape, if_neg escape,
        if_neg escape]

end IsCommon

theorem isCommon_normalize {source : List Char} (visible : ∀ c ∈ Css.normalize source, Selector.isZeroWidth c = false)
    (complete : (Css.normalize source).getLast? ≠ some '\\') : IsCommon (Css.normalize source) :=
  ⟨visible, isNormal_normalize source, complete⟩

/-- In a normal source without invisible characters that does not end in a backslash, an identifier begins at a place
for tokens if and only if it does for selectors, and the name read from there is the same for both, with its escapes
resolved, and ends at the same place. For selectors it is an error exactly when there is nothing to read. -/
theorem names_agree (source : List Char) (visible : ∀ c ∈ Css.normalize source, Selector.isZeroWidth c = false)
    (complete : (Css.normalize source).getLast? ≠ some '\\') (start : Nat) (role : Selector.NameRole) (pos : Nat) :
    let text := (Css.normalize source).drop start
    Selector.startsIdent text = Css.startsIdent text ∧ Selector.nameChars text = Css.name text ∧
      Selector.name role pos text =
        if (Css.name text).value = [] then Selector.reject (.noName role) pos
        else .ok ((Css.name text).map String.ofList) := by
  intro text
  have common : IsCommon text := (isCommon_normalize visible complete).drop start
  refine ⟨common.startsIdent, common.nameChars, ?_⟩
  rw [Selector.name, common.nameChars]

/-- A class name with an escape that ends in a line end, and one of a surrogate. -/
theorem names_agree_escapes :
    (∀ c ∈ Css.normalize ".\\41\x0d\n-\\d800 x".toList, Selector.isZeroWidth c = false) ∧
      (Css.normalize ".\\41\x0d\n-\\d800 x".toList).getLast? ≠ some '\\' ∧
      Selector.name .className 1 ((Css.normalize ".\\41\x0d\n-\\d800 x".toList).drop 1) =
        .ok ⟨"A-\uFFFDx", 12⟩ := by
  have visible : ∀ c ∈ Css.normalize ".\\41\x0d\n-\\d800 x".toList, Selector.isZeroWidth c = false := by
    rw [show Css.normalize ".\\41\x0d\n-\\d800 x".toList = ".\\41\n-\\d800 x".toList from rfl]
    simp [Selector.isZeroWidth]
  have complete : (Css.normalize ".\\41\x0d\n-\\d800 x".toList).getLast? ≠ some '\\' := by decide
  refine ⟨visible, complete, ?_⟩
  have read : Css.name ((Css.normalize ".\\41\x0d\n-\\d800 x".toList).drop 1) = ⟨"A-\uFFFDx".toList, 12⟩ := by cbv
  rw [(names_agree _ visible complete 1 .className 1).2.2, read]
  rfl

end StyleAudit
