import StyleAudit.Proofs.PaddedReading
/-!
Arguments of negations. A negation is accepted where its argument, trimmed, is one simple selector by itself. Where
trimming takes off white space alone, and none that is part of an escape, that is where the argument as it stands is one.
-/
namespace StyleAudit.Selector

open Text (Scan)

/-! White space in front. -/

theorem selectors_behindBlank {blank : List Char} (hb : IsBlank blank) (text : List Char) (pos : Nat) :
    selectors pos (blank ++ text) = selectors (pos + blank.length) text := by
  have size : spaces (blank ++ text) = blank.length + spaces text := by
    rw [spaces, List.takeWhile_append_of_pos hb, List.length_append, spaces]
  rw [selectors_eq, selectors_eq, size, ← List.drop_drop, List.drop_left, Nat.add_assoc]
  refine congrArg (complex (pos + (blank.length + spaces text)) (text.drop (spaces text)) >>= ·) (funext fun first => ?_)
  rw [selectorsBehind, selectorsBehind, size, Nat.add_assoc, ← List.drop_drop, List.drop_left]
  have far : pos + (blank.length + (spaces text + first.size) + 1) =
      pos + blank.length + (spaces text + first.size + 1) := by omega
  rw [far]

/-- Whether a list is read does not depend on where its text stands. -/
theorem selectors_anywhere {text : List Char} {list : List Complex} (pos : Nat) :
    selectors pos text = .ok list ↔ selectors 0 text = .ok list :=
  ⟨fun read => (selectors_shifts text).anywhere read 0, fun read => (selectors_shifts text).anywhere read pos⟩

/-! What is trimmed. -/

/-- What trimming takes off the ends of a text is white space, and no backslash stands for any of it. -/
def TrimsSpace (text : List Char) : Prop :=
  ∃ before behind, text = before ++ (Text.trim text ++ behind) ∧ IsBlank before ∧ IsBlank behind ∧
    (behind = [] ∨ endsInEscape (Text.trim text) = false)

theorem selectors_trim_iff {text : List Char} (plain : ∀ c ∈ text, isArgumentChar c = true) (h : TrimsSpace text)
    {parts : Compound} :
    selectors 0 text = .ok [⟨parts, []⟩] ↔ selectors 0 (Text.trim text) = .ok [⟨parts, []⟩] := by
  obtain ⟨before, behind, whole, hb, hr, last⟩ := h
  have front : selectors 0 text = .ok [⟨parts, []⟩] ↔ selectors 0 (Text.trim text ++ behind) = .ok [⟨parts, []⟩] := by
    rw [congrArg (selectors 0) whole, selectors_behindBlank hb, selectors_anywhere]
  rw [front]
  rcases last with rfl | ended
  · rw [List.append_nil]
  · have inside : ∀ c ∈ Text.trim text, isArgumentChar c = true := fun c hc => plain c (by rw [whole]; simp [hc])
    exact selectors_padded_iff (.behind ⟨inside, ended⟩ hr)

/-! Negations. -/

theorem single_eq_ok_iff {pos : Nat} {parts : Compound} {simple : Simple} :
    single pos parts = .ok simple ↔ parts = [simple] ∧ simple.isNegatable = true := by
  constructor
  · intro read
    obtain ⟨rfl, negation, element⟩ := single_form read
    refine ⟨rfl, ?_⟩
    cases simple with
    | negation argument => exact absurd rfl (negation argument)
    | pseudoElement pseudo => exact absurd rfl (element pseudo)
    | _ => rfl
  · rintro ⟨rfl, negatable⟩
    cases simple with
    | negation => cases negatable
    | pseudoElement => cases negatable
    | _ => rfl

/-- What a negation holds is what its argument is by itself, without its blanks. -/
theorem negated_eq_ok_iff {pos : Nat} {argument : List Char} {simple : Simple} :
    negated pos argument = .ok simple ↔
      simple.isNegatable = true ∧ parse (String.ofList (Text.trim argument)) = .ok [⟨[simple], []⟩] := by
  rw [parse_lone_iff (Text.trim_trim argument)]
  constructor
  · intro read
    obtain ⟨-, ⟨parts, n⟩, found, whole, one⟩ := negated_form read
    obtain ⟨rfl, negatable⟩ := single_eq_ok_iff.mp one
    exact ⟨negatable, n, (compound_shifts _).anywhere found 0, whole⟩
  · rintro ⟨negatable, n, found, whole⟩
    have some : Text.trim argument ≠ [] := by
      obtain ⟨front, rest, same, ⟨c, more, rfl, -⟩, -⟩ := compound_local found
      rw [same]
      simp
    rw [negated_eq, if_neg some, (compound_shifts _).anywhere found (pos + spaces argument)]
    dsimp only [bind, Except.bind]
    rw [whole]
    exact single_eq_ok_iff.mpr ⟨rfl, negatable⟩

/-- The negation of an argument without quotes and parentheses. -/
theorem parse_not {text : String} (plain : ∀ c ∈ text.toList, isArgumentChar c = true) :
    parse (":not(" ++ text ++ ")") = (negated 5 text.toList).map fun simple => [⟨[.negation simple], []⟩] := by
  have same : ":not(" ++ text ++ ")" = String.ofList (call "not".toList text.toList) := by
    rw [← String.toList_inj, String.toList_ofList, String.toList_append, String.toList_append, call]
    simp
  have lower : (String.ofList "not".toList).toLower = "not" := toLower_eq_self_of_all (by decide)
  rw [same, parse_negation_call (by decide) (argumentSize_balanced (.plain plain) []) lower]
  rfl

/-- A list of one negation of what another text is by itself. -/
def IsNegationOf (text : String) (list : List Complex) : Prop :=
  ∃ simple, list = [⟨[.negation simple], []⟩] ∧ simple.isNegatable = true ∧ parse text = .ok [⟨[simple], []⟩]

/-- A negation of an argument without quotes and parentheses is accepted just where the trimmed argument is one simple
selector by itself that may be negated, and then holds that one. Where trimming takes off white space alone, and none
that is escaped, the argument need not be trimmed to say so. -/
theorem parse_negation {text : String} (plain : ∀ c ∈ text.toList, isArgumentChar c = true) :
    (∀ list, parse (":not(" ++ text ++ ")") = .ok list ↔ IsNegationOf (String.ofList (Text.trim text.toList)) list) ∧
    (TrimsSpace text.toList → ∀ list, parse (":not(" ++ text ++ ")") = .ok list ↔ IsNegationOf text list) := by
  have trimmed : ∀ list, parse (":not(" ++ text ++ ")") = .ok list ↔
      IsNegationOf (String.ofList (Text.trim text.toList)) list := by
    intro list
    rw [parse_not plain]
    constructor
    · intro accepted
      obtain ⟨simple, read, rfl⟩ := map_eq_ok accepted
      exact ⟨simple, rfl, negated_eq_ok_iff.mp read⟩
    · rintro ⟨simple, rfl, alone⟩
      rw [negated_eq_ok_iff.mpr alone]
      rfl
  refine ⟨trimmed, fun space list => (trimmed list).trans ?_⟩
  have same (simple : Simple) : parse (String.ofList (Text.trim text.toList)) = .ok [⟨[simple], []⟩] ↔
      parse text = .ok [⟨[simple], []⟩] := by
    rw [parse, parse, String.toList_ofList]
    exact (selectors_trim_iff plain space).symm
  simp only [IsNegationOf, same]

/-- White space at both ends, the last of it behind the digits of an escape. -/
theorem parse_negation_escape :
    (∀ c ∈ "\t a\\41 ".toList, isArgumentChar c = true) ∧ TrimsSpace "\t a\\41 ".toList ∧
      parse "\t a\\41 " = .ok [⟨[.element "aA"], []⟩] ∧
      parse ":not(\t a\\41 )" = .ok [⟨[.negation (.element "aA")], []⟩] := by
  have plain : ∀ c ∈ "\t a\\41 ".toList, isArgumentChar c = true := List.all_eq_true.mp (by decide)
  have trims : TrimsSpace "\t a\\41 ".toList := ⟨['\t', ' '], [' '], by decide, by decide, by decide, .inr (by decide)⟩
  have alone : parse "\t a\\41 " = .ok [⟨[.element "aA"], []⟩] := by cbv
  exact ⟨plain, trims, alone, ((parse_negation plain).2 trims _).mpr ⟨_, rfl, rfl, alone⟩⟩

/-- A class whose name ends in an escaped space is a selector, but its negation is rejected at the backslash. -/
theorem parse_negation_escaped_space :
    parse ".a\\ " = .ok [⟨[.className "a "], []⟩] ∧ parse ":not(.a\\ )" = .error ⟨.unexpected '\\', 7⟩ := by
  constructor <;> cbv

end StyleAudit.Selector
