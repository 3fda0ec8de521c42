import StyleAudit.Proofs.JoinedLists
/-!
Where faults are found. A reader that rejects its text points into it, or right behind its last character, however deep
in arguments the fault is. The argument of a negation is read without its blanks, and only white space is counted for
the place it begins at; so what is counted is never more than what was left out.
-/
namespace StyleAudit.Selector

open Text (Scan)

/-- A reading of a text at a position that points into the text, if it fails. -/
def PointsInto {α : Type} (pos : Nat) (text : List Char) (read : Except Rejection α) : Prop :=
  ∀ r, read = .error r → pos ≤ r.position ∧ r.position ≤ pos + text.length

namespace PointsInto

variable {α β : Type} {pos : Nat} {text : List Char} {read : Except Rejection α}

theorem ok (a : α) : PointsInto pos text (.ok a : Except Rejection α) := fun _ h => by cases h

theorem reject (fault : Fault) {place : Nat} (lower : pos ≤ place) (upper : place ≤ pos + text.length) :
    PointsInto pos text (Selector.reject (α := α) fault place) := by
  intro r h
  obtain rfl := Except.error.inj h
  exact ⟨lower, upper⟩

theorem start (fault : Fault) : PointsInto pos text (Selector.reject (α := α) fault pos) :=
  reject fault (Nat.le_refl pos) (Nat.le_add_right pos _)

theorem map (h : PointsInto pos text read) (f : α → β) : PointsInto pos text (read.map f) := by
  cases read with
  | error r => exact fun r' same => h r' (congrArg _ (Except.error.inj same))
  | ok a => exact ok (f a)

theorem bind (h : PointsInto pos text read) {next : α → Except Rejection β}
    (tail : ∀ a, read = .ok a → PointsInto pos text (next a)) : PointsInto pos text (read >>= next) := by
  cases read with
  | error r => exact fun r' same => h r' (congrArg _ (Except.error.inj same))
  | ok a => exact tail a rfl

/-- What points into a part of a text points into the text. -/
theorem within {n : Nat} {part : List Char} (h : PointsInto (pos + n) part read)
    (size : n + part.length ≤ text.length) : PointsInto pos text read := by
  intro r failed
  have inside := h r failed
  omega

theorem behind {n : Nat} (h : PointsInto (pos + n) (text.drop n) read) (size : n ≤ text.length) :
    PointsInto pos text read := by
  refine h.within ?_
  rw [List.length_drop]
  omega

end PointsInto

/-! How much is read. -/

theorem spaces_le (text : List Char) : spaces text ≤ text.length := (List.takeWhile_sublist _).length_le

theorem behindSpaces_le {text : List Char} {n : Nat} (h : n ≤ text.length) : n + spaces (text.drop n) ≤ text.length := by
  have blank := spaces_le (text.drop n)
  rw [List.length_drop] at blank
  omega

theorem read_le {text : List Char} {n m : Nat} (h : n ≤ text.length) (read : m ≤ (text.drop n).length) :
    n + m ≤ text.length := by
  rw [List.length_drop] at read
  omega

theorem ident_size {role : NameRole} {pos : Nat} {text : List Char} {s : Scan String}
    (h : ident role pos text = .ok s) : s.size ≤ text.length := by
  obtain ⟨front, rest, rfl, -, -, -, read⟩ := ident_local h
  simp [read.size]

theorem attributeTest_size {pos : Nat} {text : List Char} {s : Scan (Option AttributeTest)}
    (h : attributeTest pos text = .ok s) : s.size ≤ text.length := by
  obtain ⟨front, rest, rfl, -, -, read⟩ := attributeTest_sealed h
  simp [read.size]

theorem attributeValue_size {pos : Nat} {text : List Char} {s : Scan String} (h : attributeValue pos text = .ok s) :
    s.size ≤ text.length := by
  obtain ⟨front, rest, rfl, read⟩ := attributeValue_local h
  simp [read.elim (·.size) (·.2.size)]

theorem pseudo_size {pos : Nat} {text : List Char} {s : Scan Pseudo} (h : pseudo pos text = .ok s) :
    s.size ≤ text.length ∧ ∀ start size, s.value = .negation start size → start + size ≤ text.length := by
  obtain ⟨front, rest, rfl, read, inside⟩ := pseudo_local h
  refine ⟨by simp [read.size], fun start size same => ?_⟩
  have within := inside start size same
  rw [List.length_append]
  omega

theorem marked_size {c : Char} {pos : Nat} {rest : List Char} {s : Scan Simple} (h : marked c rest pos = .ok s) :
    s.size ≤ rest.length := by
  unfold marked at h
  split at h
  · obtain ⟨name, found, rfl⟩ := map_eq_ok h
    exact ident_size found
  · split at h
    · obtain ⟨name, found, rfl⟩ := map_eq_ok h
      obtain ⟨front, rest, rfl, read⟩ := name_local found
      simp [read.size]
    · split at h
      · obtain rfl := Except.ok.inj h
        exact Nat.zero_le _
      · obtain ⟨front, rest, rfl, read⟩ := attributeSelector_sealed h
        simp [read.size]

theorem pseudoSimple_size {pos : Nat} {rest : List Char} {s : Scan Simple} (h : pseudoSimple rest pos = .ok s) :
    s.size ≤ rest.length := by
  obtain ⟨read, found, h⟩ := bind_eq_ok h
  have size := (pseudo_size found).1
  cases kind : read.value with
  | simple simple =>
      rw [kind] at h
      obtain rfl := Except.ok.inj h
      exact size
  | negation start inner =>
      rw [kind] at h
      obtain ⟨simple, -, rfl⟩ := map_eq_ok h
      exact size

theorem typeSelector_size {pos : Nat} {text : List Char} {s : Scan Compound} (h : typeSelector pos text = .ok s) :
    s.size ≤ text.length := by
  unfold typeSelector at h
  split at h
  · next star =>
      obtain rfl := Except.ok.inj h
      obtain ⟨rest, rfl⟩ := List.head?_eq_some_iff.mp star
      simp
  · split at h
    · obtain ⟨name, found, rfl⟩ := map_eq_ok h
      exact ident_size found
    · obtain rfl := Except.ok.inj h
      exact Nat.zero_le _

theorem compound_size {pos : Nat} {text : List Char} {s : Scan Compound} (h : compound pos text = .ok s) :
    s.size ≤ text.length := by
  obtain ⟨front, rest, rfl, -, read⟩ := compound_local h
  simp [read.size]

/-- White space ends at the latest where a character is none. -/
theorem spaces_le_of_visible {c : Char} (visible : isSpace c = false) (front rest : List Char) :
    spaces (front ++ c :: rest) ≤ front.length := by
  induction front with
  | nil => rw [List.nil_append, spaces_none (.cons visible), List.length_nil]
  | cons d front ih =>
      rw [spaces, List.cons_append, List.takeWhile_cons]
      split
      · exact Nat.succ_le_succ ih
      · exact Nat.zero_le _

/-- The white space in front of a text, and the text without its blanks, are no longer than the text. -/
theorem spaces_trim {text : List Char} (some : Text.trim text ≠ []) :
    spaces text + (Text.trim text).length ≤ text.length := by
  obtain ⟨before, behind, parts, -, -⟩ := Text.trim_parts text
  obtain ⟨c, more, first⟩ := List.exists_cons_of_ne_nil some
  have visible := isSpace_of_not_isBlank ((Text.trim_ends text).1 c (by rw [first]; rfl))
  have counted : spaces text ≤ before.length := by
    rw [parts, first]
    exact spaces_le_of_visible visible before _
  have long := congrArg List.length parts
  rw [List.length_append, List.length_append] at long
  omega

/-! Names, strings and attributes. -/

theorem name_pointsInto (role : NameRole) (pos : Nat) (text : List Char) : PointsInto pos text (name role pos text) := by
  unfold name
  dsimp only
  split
  · exact .start _
  · exact .ok _

theorem ident_pointsInto (role : NameRole) (pos : Nat) (text : List Char) :
    PointsInto pos text (ident role pos text) := by
  unfold ident
  split
  · exact name_pointsInto role pos text
  · cases text <;> exact .start _

theorem string_pointsInto (quote : Char) (pos : Nat) (text : List Char) :
    PointsInto pos text (string quote pos text) := by
  fun_induction string quote pos text with
  | case1 => exact .start _
  | case2 => exact .ok _
  | case3 => exact .reject _ (by omega) (by simp)
  | case4 _ _ _ _ ih => exact (ih.map _).within (by simp; omega)
  | case5 => exact .reject _ (by omega) (by simp)
  | case6 _ _ _ _ _ _ ih => exact (ih.map _).within (by simp [Nat.add_comm])

theorem attributeValue_pointsInto (pos : Nat) (text : List Char) : PointsInto pos text (attributeValue pos text) := by
  unfold attributeValue
  cases text with
  | nil => exact ident_pointsInto _ _ _
  | cons c rest =>
      dsimp only
      split
      · exact ((string_pointsInto c (pos + 1) rest).map _).within (by simp [Nat.add_comm])
      · exact ident_pointsInto _ _ _

theorem attributeTest_pointsInto (pos : Nat) (text : List Char) : PointsInto pos text (attributeTest pos text) := by
  unfold attributeTest
  split
  · exact .start _
  · exact .ok _
  · exact .ok _
  · split
    · exact .ok _
    · exact .reject _ (by omega) (by simp)
  · exact .reject _ (by omega) (by simp)

theorem attributeEnd_pointsInto (pos : Nat) (text : List Char) : PointsInto pos text (attributeEnd pos text) := by
  unfold attributeEnd
  split
  · exact .start _
  · split
    · exact .ok _
    · split
      · split
        · exact .ok _
        · exact .start _
      · exact .reject _ (by omega) (by simp)

theorem attributeSelector_pointsInto (pos : Nat) (text : List Char) :
    PointsInto pos text (attributeSelector pos text) := by
  unfold attributeSelector
  have blank := spaces_le text
  refine ((ident_pointsInto _ _ _).behind blank).bind fun name named => ?_
  have word := behindSpaces_le (read_le blank (ident_size named))
  refine ((attributeTest_pointsInto _ _).behind word).bind fun test tested => ?_
  have sign := read_le word (attributeTest_size tested)
  split
  · exact .ok _
  · have gap := behindSpaces_le sign
    refine ((attributeValue_pointsInto _ _).behind gap).bind fun value valued => ?_
    have last := behindSpaces_le (read_le gap (attributeValue_size valued))
    exact ((attributeEnd_pointsInto _ _).behind last).bind fun stop _ => .ok _

/-! Pseudo-classes and pseudo-elements. -/

section

variable {pos place : Nat} {text : List Char}

theorem pseudoElement_pointsInto (lower : pos ≤ place) (upper : place ≤ pos + text.length) (name : String)
    (rest : List Char) : PointsInto pos text (pseudoElement place name rest) := by
  unfold pseudoElement
  split
  · exact .ok _
  · split <;> exact .reject _ lower upper

theorem plainPseudoClass_pointsInto (lower : pos ≤ place) (upper : place ≤ pos + text.length) (name : String) :
    PointsInto pos text (plainPseudoClass place name) := by
  unfold plainPseudoClass
  split
  · exact .ok _
  · split <;> exact .reject _ lower upper

theorem pseudoFunction_pointsInto {stop : Nat} (lower : pos ≤ place) (order : place ≤ stop)
    (upper : stop ≤ pos + text.length) (name : String) (argument : List Char) :
    PointsInto pos text (pseudoFunction place stop name argument) := by
  have inside : place ≤ pos + text.length := Nat.le_trans order upper
  unfold pseudoFunction
  split
  · unfold language
    dsimp only
    split
    · exact .ok _
    · exact .reject _ lower inside
  · split
    · split
      · exact .ok _
      · exact .reject _ lower inside
    · exact .reject _ (Nat.le_trans lower order) upper

theorem single_pointsInto (lower : pos ≤ place) (upper : place ≤ pos + text.length) (parts : Compound) :
    PointsInto pos text (single place parts) := by
  unfold single
  split
  · exact .reject _ lower upper
  · exact .reject _ lower upper
  · exact .ok _
  · exact .reject _ lower upper

end

theorem pseudo_pointsInto (pos : Nat) (text : List Char) : PointsInto pos text (pseudo pos text) := by
  unfold pseudo
  split
  · next rest =>
      refine ((ident_pointsInto _ _ _).within (by simp [Nat.add_comm])).bind fun name named => ?_
      have size := ident_size named
      refine (pseudoElement_pointsInto (by omega) ?_ _ _).bind fun simple _ => .ok _
      rw [List.length_cons]
      omega
  · refine (ident_pointsInto _ _ _).bind fun name named => ?_
    have size := ident_size named
    split
    · next rest opening =>
        have behind := congrArg List.length opening
        rw [List.length_drop, List.length_cons] at behind
        dsimp only
        split
        · exact .reject _ (by omega) (Nat.le_refl _)
        · next inner closing =>
            have inside := argumentSize_lt closing
            split
            · exact .ok _
            · exact (pseudoFunction_pointsInto (by omega) (by omega) (by omega) _ _).bind fun simple _ => .ok _
    · exact (plainPseudoClass_pointsInto (by omega) (by omega) _).bind fun simple _ => .ok _

theorem typeSelector_pointsInto (pos : Nat) (text : List Char) : PointsInto pos text (typeSelector pos text) := by
  unfold typeSelector
  split
  · exact .ok _
  · split
    · exact (ident_pointsInto _ _ _).map _
    · exact .ok _

theorem marked_pointsInto (c : Char) (rest : List Char) (pos : Nat) : PointsInto pos rest (marked c rest pos) := by
  unfold marked
  split
  · exact (ident_pointsInto _ _ _).map _
  · split
    · exact (name_pointsInto _ _ _).map _
    · split
      · exact .ok _
      · exact attributeSelector_pointsInto pos rest

/-! Compounds and negations. -/

mutual
theorem simples_pointsInto (pos : Nat) (text : List Char) : PointsInto pos text (simples pos text) := by
  match text with
  | [] =>
      rw [simples]
      exact .ok _
  | c :: rest =>
      have tail : ∀ first : Scan Simple, first.size ≤ rest.length →
          PointsInto pos (c :: rest) (simplesBehind rest pos first) := fun first size =>
        ((simples_pointsInto (pos + (1 + first.size)) (rest.drop first.size)).map _).within (by simp; omega)
      have pseudos : PointsInto (pos + 1) rest (pseudoSimple rest (pos + 1)) := by
        refine (pseudo_pointsInto (pos + 1) rest).bind fun read found => ?_
        cases kind : read.value with
        | simple simple => exact .ok _
        | negation start size =>
            have inside := (pseudo_size found).2 start size kind
            have inner := negated_pointsInto (pos + 1 + start) ((rest.drop start).take size)
            exact (inner.map _).within (by simp; omega)
      have one : 1 + rest.length ≤ (c :: rest).length := by simp [Nat.add_comm]
      rw [simples_cons]
      split
      · exact (pseudos.within one).bind fun first read => tail first (pseudoSimple_size read)
      · split
        · exact .start _
        · split
          · exact .start _
          · split
            · exact ((marked_pointsInto c rest (pos + 1)).within one).bind fun first read => tail first (marked_size read)
            · exact .ok _
termination_by (text.length, 0)
decreasing_by
  all_goals apply Prod.Lex.left
  all_goals simp only [List.length_drop, List.length_take, List.length_cons]; omega

theorem compound_pointsInto (pos : Nat) (text : List Char) : PointsInto pos text (compound pos text) := by
  rw [compound_eq]
  refine (typeSelector_pointsInto pos text).bind fun start typed => ?_
  have size := typeSelector_size typed
  refine ((simples_pointsInto (pos + start.size) (text.drop start.size)).behind size).bind fun more _ => ?_
  split
  · exact .start _
  · exact .ok _
termination_by (text.length, 1)
decreasing_by
  rw [Prod.lex_def]
  simp only [List.length_drop]
  omega

/-- What a negation is rejected for is in its argument. -/
theorem negated_pointsInto (pos : Nat) (argument : List Char) : PointsInto pos argument (negated pos argument) := by
  rw [negated_eq]
  split
  · exact .start _
  · next some =>
      have size := spaces_trim some
      refine ((compound_pointsInto (pos + spaces argument) (Text.trim argument)).within size).bind fun parts read => ?_
      have taken := compound_size read
      split
      · exact .reject _ (by omega) (by omega)
      · exact single_pointsInto (Nat.le_refl pos) (Nat.le_add_right pos _) _
termination_by (argument.length, 2)
decreasing_by
  rw [Prod.lex_def]
  have := Text.length_trim_le argument
  simp only; omega
end

/-! Selectors and lists of them. -/

theorem links_pointsInto (pos : Nat) (text : List Char) : PointsInto pos text (links pos text) := by
  have blank := spaces_le text
  rw [links_eq]
  split
  · exact .ok _
  · exact .reject _ (by omega) (by omega)
  · next sign m found =>
      obtain ⟨between, rest, parts, -, size⟩ := between_of_joint found
      have inside : between.length ≤ text.length := by simp [parts]
      rw [← size, linksBehind]
      split
      · exact .reject _ (by omega) (by omega)
      · next some =>
          refine ((compound_pointsInto _ _).behind inside).bind fun word read => ?_
          have taken := read_le inside (compound_size read)
          have shorter : (text.drop (between.length + word.size)).length < text.length := by
            have progress := joint_progress found
            simp only [bne_iff_ne, ne_eq] at progress
            rw [List.length_drop]
            omega
          exact ((links_pointsInto _ _).map _).behind taken
termination_by text.length
decreasing_by exact shorter

theorem complex_pointsInto (pos : Nat) (text : List Char) : PointsInto pos text (complex pos text) := by
  rw [complex_eq]
  exact (compound_pointsInto pos text).bind fun first read =>
    ((links_pointsInto _ _).behind (compound_size read)).map _

theorem selectors_pointsInto (pos : Nat) (text : List Char) : PointsInto pos text (selectors pos text) := by
  have blank := spaces_le text
  rw [selectors_eq]
  refine ((complex_pointsInto _ _).behind blank).bind fun first _ => ?_
  unfold selectorsBehind
  split
  · exact .ok _
  · next c rest goesOn =>
      have behind := congrArg List.length goesOn
      rw [List.length_drop, List.length_cons] at behind
      have shorter : rest.length < text.length := by omega
      exact ((selectors_pointsInto _ rest).map _).within (by omega)
termination_by text.length
decreasing_by exact shorter

end StyleAudit.Selector
