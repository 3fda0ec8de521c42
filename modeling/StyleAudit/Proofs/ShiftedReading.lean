import StyleAudit.Selector.Grammar
/-!
Reading further on: the position that a reader of the grammar is given only says where its faults are. Given a position
so much greater, it reads the same, or finds the same fault so much further on.
-/
namespace StyleAudit.Selector

open Text (Scan)

/-- The same fault so many characters further on. -/
def Rejection.further (k : Nat) (r : Rejection) : Rejection := ⟨r.fault, r.position + k⟩

/-- A reader whose faults move along with the position that it is given. -/
def Shifts {α : Type} (read : Nat → Except Rejection α) : Prop :=
  ∀ pos k, read (pos + k) = (read pos).mapError (Rejection.further k)

namespace Shifts

variable {α β : Type} {read : Nat → Except Rejection α}

theorem ok (a : α) : Shifts fun _ => .ok a := fun _ _ => rfl

theorem reject (fault : Fault) : Shifts (Selector.reject (α := α) fault) := fun _ _ => rfl

theorem behind (h : Shifts read) (n : Nat) : Shifts fun pos => read (pos + n) := by
  intro pos k
  change read (pos + k + n) = _
  rw [Nat.add_right_comm, h]

theorem map (h : Shifts read) (f : α → β) : Shifts fun pos => (read pos).map f := by
  intro pos k
  dsimp only
  rw [h]
  cases read pos <;> rfl

theorem bind (h : Shifts read) {next : α → Nat → Except Rejection β} (tail : ∀ a, Shifts (next a)) :
    Shifts fun pos => read pos >>= fun a => next a pos := by
  intro pos k
  dsimp only
  rw [h]
  cases read pos with
  | error _ => rfl
  | ok a => exact tail a pos k

/-- What is read at one position is read at any other. -/
theorem anywhere (h : Shifts read) {pos : Nat} {a : α}
    (found : read pos = .ok a) (other : Nat) : read other = .ok a := by
  have start : read 0 = .ok a := by
    rw [← Nat.zero_add pos, h] at found
    cases zero : read 0 with
    | error _ => rw [zero] at found; cases found
    | ok b => rw [zero] at found; exact found
  rw [← Nat.zero_add other, h, start]
  rfl

end Shifts

/-! Names, strings and attributes. -/

theorem name_shifts (role : NameRole) (text : List Char) : Shifts (name role · text) := by
  unfold name
  dsimp only
  split
  · exact .reject _
  · exact .ok _

theorem ident_shifts (role : NameRole) (text : List Char) : Shifts (ident role · text) := by
  unfold ident
  split
  · exact name_shifts role text
  · cases text <;> exact .reject _

theorem string_shifts (quote : Char) (text : List Char) : Shifts (string quote · text) := by
  match text with
  | [] => exact .reject _
  | c :: rest =>
      unfold string
      split
      · exact .ok _
      · split
        · match rest with
          | [] => exact (Shifts.reject _).behind 1
          | d :: more => exact ((string_shifts quote more).behind 2).map _
        · split
          · exact (Shifts.reject _).behind 1
          · exact ((string_shifts quote rest).behind 1).map _

theorem attributeValue_shifts (text : List Char) : Shifts (attributeValue · text) := by
  unfold attributeValue
  cases text with
  | nil => exact ident_shifts _ _
  | cons c rest =>
      dsimp only
      split
      · exact ((string_shifts c rest).behind 1).map _
      · exact ident_shifts _ _

theorem attributeTest_shifts (text : List Char) : Shifts (attributeTest · text) := by
  unfold attributeTest
  split
  · exact .reject _
  · exact .ok _
  · exact .ok _
  · next c _ _ _ =>
      cases AttributeTest.ofSign? c with
      | none => exact (Shifts.reject _).behind 1
      | some test => exact .ok _
  · exact (Shifts.reject _).behind 1

theorem attributeEnd_shifts (text : List Char) : Shifts (attributeEnd · text) := by
  unfold attributeEnd
  split
  · exact .reject _
  · split
    · exact .ok _
    · split
      · split
        · exact .ok _
        · exact .reject _
      · exact (Shifts.reject _).behind 1

theorem attributeSelector_shifts (text : List Char) : Shifts (attributeSelector · text) := by
  unfold attributeSelector
  refine ((ident_shifts _ _).behind _).bind fun name => ?_
  refine ((attributeTest_shifts _).behind _).bind fun test => ?_
  cases test.value with
  | none => exact .ok _
  | some test =>
      refine ((attributeValue_shifts _).behind _).bind fun value => ?_
      exact ((attributeEnd_shifts _).behind _).bind fun stop => .ok _

/-! Pseudo-classes and pseudo-elements. -/

theorem pseudoElement_shifts (name : String) (rest : List Char) : Shifts (pseudoElement · name rest) := by
  unfold pseudoElement
  split
  · exact .ok _
  · split <;> exact .reject _

theorem plainPseudoClass_shifts (name : String) : Shifts (plainPseudoClass · name) := by
  unfold plainPseudoClass
  split
  · exact .ok _
  · split <;> exact .reject _

theorem language_shifts (argument : List Char) : Shifts (language · argument) := by
  unfold language
  dsimp only
  split
  · exact .ok _
  · exact .reject _

theorem pseudoFunction_shifts (start size : Nat) (name : String) (argument : List Char) :
    Shifts fun pos => pseudoFunction (pos + start) (pos + start + size + 1) name argument := by
  unfold pseudoFunction
  split
  · exact (language_shifts argument).behind start
  · split
    · split
      · exact .ok _
      · exact (Shifts.reject _).behind start
    · exact (((Shifts.reject _).behind 1).behind size).behind start

theorem pseudo_shifts (text : List Char) : Shifts (pseudo · text) := by
  unfold pseudo
  split
  · refine ((ident_shifts _ _).behind 1).bind fun name => ?_
    exact ((pseudoElement_shifts _ _).behind _).bind fun simple => .ok _
  · refine (ident_shifts _ _).bind fun name => ?_
    split
    · dsimp only
      split
      · exact (Shifts.reject _).behind _
      · split
        · exact .ok _
        · exact (pseudoFunction_shifts _ _ _ _).bind fun simple => .ok _
    · exact ((plainPseudoClass_shifts _).behind _).bind fun simple => .ok _

theorem single_shifts (simples : Compound) : Shifts (single · simples) := by
  unfold single
  split
  · exact .reject _
  · exact .reject _
  · exact .ok _
  · exact .reject _

theorem typeSelector_shifts (text : List Char) : Shifts (typeSelector · text) := by
  unfold typeSelector
  split
  · exact .ok _
  · split
    · exact (ident_shifts _ _).map _
    · exact .ok _

/-! Compounds and what follows them. Each reader is first written as a sequence of readers. -/

/-- What a mark other than a colon begins. -/
def marked (c : Char) (rest : List Char) (pos : Nat) : Except Rejection (Scan Simple) :=
  if c = '.' then (ident .className pos rest).map (Scan.map Simple.className)
  else if c = '#' then (name .id pos rest).map (Scan.map Simple.id)
  else if c = '&' then .ok ⟨.nesting, 0⟩
  else attributeSelector pos rest

/-- What a pseudo stands for, read behind its first colon; a negation with what it holds. -/
def pseudoSimple (rest : List Char) (pos : Nat) : Except Rejection (Scan Simple) :=
  pseudo pos rest >>= fun read => match read.value with
    | .simple simple => .ok ⟨simple, read.size⟩
    | .negation start size =>
      (negated (pos + start) ((rest.drop start).take size)).map fun simple => ⟨.negation simple, read.size⟩

/-- The simple selectors behind a mark and the simple selector that it begins. -/
def simplesBehind (rest : List Char) (pos : Nat) (first : Scan Simple) : Except Rejection (Scan Compound) :=
  (simples (pos + (1 + first.size)) (rest.drop first.size)).map (Scan.behind (1 + first.size) (first.value :: ·))

theorem simples_cons (pos : Nat) (c : Char) (rest : List Char) :
    simples pos (c :: rest) =
      if c = ':' then pseudoSimple rest (pos + 1) >>= simplesBehind rest pos
      else if c = '*' then reject .universalNotFirst pos
      else if startsIdent (c :: rest) then reject .elementNotFirst pos
      else if c = '.' ∨ c = '#' ∨ c = '&' ∨ c = '[' then marked c rest (pos + 1) >>= simplesBehind rest pos
      else .ok ⟨[], 0⟩ := by
  rw [simples.eq_def]
  dsimp only
  split
  · rw [pseudoSimple]
    rcases pseudo (pos + 1) rest with _ | ⟨simple | ⟨start, size⟩, n⟩
    · rfl
    · rfl
    · dsimp only [bind, Except.bind]
      cases negated (pos + 1 + start) ((rest.drop start).take size) <;> rfl
  · split
    · rfl
    · split
      · rfl
      · split
        · rw [← marked]
          cases marked c rest (pos + 1) <;> rfl
        · rfl

theorem compound_eq (pos : Nat) (text : List Char) :
    compound pos text = (typeSelector pos text >>= fun start =>
      simples (pos + start.size) (text.drop start.size) >>= fun more =>
        if start.value ++ more.value = [] then
          reject (match text with | c :: _ => if isZeroWidth c then .unexpected c else .noSelector | [] => .noSelector) pos
        else .ok ⟨start.value ++ more.value, start.size + more.size⟩) := by
  rw [compound.eq_def]
  cases typeSelector pos text with
  | error _ => rfl
  | ok start =>
      dsimp only [bind, Except.bind]
      cases simples (pos + start.size) (text.drop start.size) with
      | error _ => rfl
      | ok more => cases text <;> rfl

theorem negated_eq (pos : Nat) (argument : List Char) :
    negated pos argument =
      if Text.trim argument = [] then reject .emptyNegation pos
      else compound (pos + spaces argument) (Text.trim argument) >>= fun parts =>
        match (Text.trim argument).drop parts.size with
        | c :: _ => reject (if separates c then .notSingle else .unexpected c) (pos + spaces argument + parts.size)
        | [] => single pos parts.value := by
  rw [negated.eq_def]
  dsimp only
  split
  · rfl
  · cases compound (pos + spaces argument) (Text.trim argument) <;> rfl

theorem marked_shifts (c : Char) (rest : List Char) : Shifts (marked c rest) := by
  unfold marked
  split
  · exact (ident_shifts _ _).map _
  · split
    · exact (name_shifts _ _).map _
    · split
      · exact .ok _
      · exact attributeSelector_shifts rest

mutual
theorem simples_shifts (text : List Char) : Shifts (simples · text) := by
  match text with
  | [] =>
      simp only [simples.eq_def]
      exact .ok _
  | c :: rest =>
      have tail : ∀ first, Shifts (simplesBehind rest · first) := fun first =>
        ((simples_shifts (rest.drop first.size)).behind (1 + first.size)).map _
      have pseudos : Shifts (pseudoSimple rest) := by
        refine (pseudo_shifts rest).bind fun read => ?_
        cases read.value with
        | simple simple => exact .ok _
        | negation start size => exact ((negated_shifts ((rest.drop start).take size)).behind start).map _
      simp only [simples_cons]
      split
      · exact (pseudos.behind 1).bind tail
      · split
        · exact .reject _
        · split
          · exact .reject _
          · split
            · exact ((marked_shifts c rest).behind 1).bind tail
            · exact .ok _
termination_by (text.length, 0)
decreasing_by
  all_goals apply Prod.Lex.left
  all_goals simp only [List.length_drop, List.length_take, List.length_cons]; omega

theorem compound_shifts (text : List Char) : Shifts (compound · text) := by
  simp only [compound_eq]
  refine (typeSelector_shifts text).bind fun start => ?_
  refine ((simples_shifts (text.drop start.size)).behind start.size).bind fun more => ?_
  split
  · exact .reject _
  · exact .ok _
termination_by (text.length, 1)
decreasing_by
  rw [Prod.lex_def]
  simp only [List.length_drop]
  omega

theorem negated_shifts (argument : List Char) : Shifts (negated · argument) := by
  simp only [negated_eq]
  split
  · exact .reject _
  · refine ((compound_shifts (Text.trim argument)).behind (spaces argument)).bind fun parts => ?_
    split
    · exact ((Shifts.reject _).behind _).behind _
    · exact single_shifts _
termination_by (argument.length, 2)
decreasing_by
  rw [Prod.lex_def]
  have := Text.length_trim_le argument
  simp only; omega
end

/-- The compounds behind a combinator, with the white space before and behind it as so many characters. -/
def linksBehind (text : List Char) (sign : Combinator) (n pos : Nat) :
    Except Rejection (Scan (List (Combinator × Compound))) :=
  if text.drop n = [] ∨ (text.drop n).head? = some ',' then reject .danglingCombinator (pos + n)
  else compound (pos + n) (text.drop n) >>= fun parts =>
    (links (pos + (n + parts.size)) (text.drop (n + parts.size))).map
      (Scan.behind (n + parts.size) ((sign, parts.value) :: ·))

theorem links_eq (pos : Nat) (text : List Char) :
    links pos text = match joint (spaces text != 0) (text.drop (spaces text)) with
      | (.none, _) => .ok ⟨[], spaces text⟩
      | (.unexpected c, _) => reject (.unexpected c) (pos + spaces text)
      | (.combinator sign, m) =>
        linksBehind text sign (spaces text + m + spaces (text.drop (spaces text + m))) pos := by
  rw [links.eq_def]
  dsimp only
  split
  · next stop => rw [stop]
  · next other => rw [other]
  · next sign m found =>
      rw [found]
      dsimp only
      rw [linksBehind]
      split
      · next none => rw [if_pos (.inl none)]
      · next c rest some =>
          by_cases comma : c = ','
          · rw [if_pos comma, if_pos (.inr (by simp [some, comma]))]
          · rw [if_neg comma, if_neg (by simp [some, comma])]
            cases compound _ (text.drop (spaces text + m + spaces (text.drop (spaces text + m)))) <;> rfl

theorem links_shifts (text : List Char) : Shifts (links · text) := by
  simp only [links_eq]
  split
  · exact .ok _
  · exact (Shifts.reject _).behind _
  · next sign m found =>
      unfold linksBehind
      split
      · exact (Shifts.reject _).behind _
      · next some =>
          simp only [not_or] at some
          refine ((compound_shifts _).behind _).bind fun parts => ?_
          have shorter : (text.drop (spaces text + m + spaces (text.drop (spaces text + m)) + parts.size)).length <
              text.length := by
            have progress := joint_progress found
            have behind := List.length_pos_iff.mpr some.1
            simp only [List.length_drop, bne_iff_ne, ne_eq] at progress behind ⊢
            omega
          exact ((links_shifts _).behind _).map _
termination_by text.length
decreasing_by exact shorter

theorem complex_eq (pos : Nat) (text : List Char) :
    complex pos text = (compound pos text >>= fun first =>
      (links (pos + first.size) (text.drop first.size)).map (Scan.behind first.size (⟨first.value, ·⟩))) := by
  rw [complex]
  cases compound pos text <;> rfl

theorem complex_shifts (text : List Char) : Shifts (complex · text) := by
  simp only [complex_eq]
  exact (compound_shifts text).bind fun first => ((links_shifts _).behind _).map _

/-- The selectors of a list, behind its first one. -/
def selectorsBehind (text : List Char) (pos : Nat) (first : Scan Complex) : Except Rejection (List Complex) :=
  match text.drop (spaces text + first.size) with
  | [] => .ok [first.value]
  | _ :: rest => (selectors (pos + (spaces text + first.size + 1)) rest).map (first.value :: ·)

theorem selectors_eq (pos : Nat) (text : List Char) :
    selectors pos text = complex (pos + spaces text) (text.drop (spaces text)) >>= selectorsBehind text pos := by
  rw [selectors.eq_def]
  dsimp only
  cases complex (pos + spaces text) (text.drop (spaces text)) with
  | error _ => rfl
  | ok first =>
      change _ = selectorsBehind text pos first
      rw [selectorsBehind]
      dsimp only
      split
      · next done => rw [done]
      · next goesOn => rw [goesOn]

/-- A list that is read further on has the same selectors, or the same fault so much further on. -/
theorem selectors_shifts (text : List Char) : Shifts (selectors · text) := by
  simp only [selectors_eq]
  refine ((complex_shifts _).behind _).bind fun first => ?_
  unfold selectorsBehind
  split
  · exact .ok _
  · next c rest goesOn =>
      have shorter : rest.length < text.length := by
        have behind := congrArg List.length goesOn
        simp only [List.length_drop, List.length_cons] at behind
        omega
      exact ((selectors_shifts rest).behind _).map _
termination_by text.length

end StyleAudit.Selector
