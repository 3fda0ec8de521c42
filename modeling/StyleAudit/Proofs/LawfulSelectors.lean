import StyleAudit.Proofs.SelectorWriting
import StyleAudit.Proofs.UnquotedReading
/-!
Laws of selectors. Whatever the grammar accepts keeps them: no name is empty, an element name stands first in its
compound, and negations are not nested. The argument of a negation is read as a text of its own.
-/
namespace StyleAudit.Selector

open Text (Scan)

/-- A name that can be read from a text. Only an escape puts a character of zero width into it. -/
structure IsNameIn (text : List Char) (name : String) : Prop where
  visible : name ≠ ""
  plain : '\\' ∉ text → ∀ c ∈ name.toList, isZeroWidth c = false

def Simple.IsLawful (text : List Char) : Simple → Prop
  | .element name | .className name | .id name | .hasAttribute name _ => IsNameIn text name
  | .negation argument => argument.isNegatable = true ∧ argument.IsLawful text
  | .language range => range ≠ "" ∧ ∀ c ∈ range.toList, c.isAlphanum = true ∨ c = '-'
  | .universal | .nesting | .pseudoClass _ | .position _ _ | .pseudoElement _ => True

structure Compound.IsLawful (text : List Char) (compound : Compound) : Prop where
  some : compound ≠ []
  typeFirst : ∀ simple ∈ compound.tail, simple.isType = false
  simples : ∀ simple ∈ compound, simple.IsLawful text

structure Complex.IsLawful (text : List Char) (selector : Complex) : Prop where
  joined : selector.combinators.length + 1 = selector.compounds.length
  compounds : ∀ compound ∈ selector.compounds, Compound.IsLawful text compound

/-! Laws in a part of a text are laws in the whole. -/

theorem IsNameIn.mono {part text : List Char} {name : String} (h : IsNameIn part name) (sub : part ⊆ text) :
    IsNameIn text name := by
  refine ⟨h.visible, ?_⟩
  intro unescaped
  exact h.plain fun mem => unescaped (sub mem)

theorem Simple.IsLawful.mono {part text : List Char} {simple : Simple} (h : simple.IsLawful part) (sub : part ⊆ text) :
    simple.IsLawful text := by
  induction simple with
  | element _ | className _ | id _ | hasAttribute _ _ => exact IsNameIn.mono h sub
  | negation argument ih => exact ⟨h.1, ih h.2⟩
  | language _ => exact h
  | universal | nesting | pseudoClass _ | position _ _ | pseudoElement _ => trivial

theorem Compound.IsLawful.mono {part text : List Char} {compound : Compound} (h : Compound.IsLawful part compound)
    (sub : part ⊆ text) : Compound.IsLawful text compound :=
  ⟨h.some, h.typeFirst, fun simple mem => (h.simples simple mem).mono sub⟩

/-! Names. -/

theorem isZeroWidth_of_isNameChar {c : Char} (h : isNameChar c = true) : isZeroWidth c = false := by
  rw [isNameChar_iff, isNameStart_iff] at h
  rw [Bool.eq_false_iff, ne_eq, isZeroWidth_iff]
  omega

theorem name_isNameIn {role : NameRole} {pos : Nat} {text : List Char} {s : Scan String}
    (h : name role pos text = .ok s) : IsNameIn text s.value := by
  rw [name] at h
  split at h
  · cases h
  · next visible =>
      obtain rfl := Except.ok.inj h
      refine ⟨?_, ?_⟩
      · intro empty
        exact visible (String.ofList_eq_empty_iff.mp empty)
      · intro unescaped c mem
        rw [Scan.map_value, String.toList_ofList, nameChars_unescaped unescaped] at mem
        exact isZeroWidth_of_isNameChar (List.all_eq_true.mp List.all_takeWhile c mem)

theorem ident_isNameIn {role : NameRole} {pos : Nat} {text : List Char} {s : Scan String}
    (h : ident role pos text = .ok s) : IsNameIn text s.value := by
  unfold ident at h
  split at h
  · exact name_isNameIn h
  · split at h <;> cases h

/-! Simple selectors. -/

/-- What may stand anywhere in a compound. -/
def Simple.IsFollower (text : List Char) (simple : Simple) : Prop := simple.IsLawful text ∧ simple.isType = false

theorem Simple.IsFollower.mono {part text : List Char} {simple : Simple} (h : simple.IsFollower part)
    (sub : part ⊆ text) : simple.IsFollower text := ⟨h.1.mono sub, h.2⟩

theorem attributeSelector_isFollower {pos : Nat} {text : List Char} {s : Scan Simple}
    (h : attributeSelector pos text = .ok s) : s.value.IsFollower text := by
  unfold attributeSelector at h
  obtain ⟨name, found, h⟩ := bind_eq_ok h
  obtain ⟨test, -, h⟩ := bind_eq_ok h
  have lawful : IsNameIn text name.value := (ident_isNameIn found).mono (List.drop_subset _ _)
  split at h
  · obtain rfl := Except.ok.inj h
    exact ⟨lawful, rfl⟩
  · obtain ⟨value, -, h⟩ := bind_eq_ok h
    obtain ⟨stop, -, h⟩ := bind_eq_ok h
    obtain rfl := Except.ok.inj h
    exact ⟨lawful, rfl⟩

theorem pseudoElement_form {pos : Nat} {name : String} {rest : List Char} {simple : Simple}
    (h : pseudoElement pos name rest = .ok simple) : ∃ element, simple = .pseudoElement element := by
  unfold pseudoElement at h
  split at h
  · exact ⟨_, (Except.ok.inj h).symm⟩
  · split at h <;> cases h

theorem plainPseudoClass_form {pos : Nat} {name : String} {simple : Simple}
    (h : plainPseudoClass pos name = .ok simple) : ∃ pseudo, simple = .pseudoClass pseudo := by
  unfold plainPseudoClass at h
  split at h
  · exact ⟨_, (Except.ok.inj h).symm⟩
  · split at h <;> cases h

theorem language_isFollower {pos : Nat} {argument text : List Char} {simple : Simple}
    (h : language pos argument = .ok simple) : simple.IsFollower text := by
  rw [language] at h
  split at h
  · next range =>
      obtain rfl := Except.ok.inj h
      refine ⟨⟨?_, ?_⟩, rfl⟩
      · intro empty
        exact range.1 (String.ofList_eq_empty_iff.mp empty)
      · intro c mem
        rw [String.toList_ofList] at mem
        have known := List.all_eq_true.mp range.2 c mem
        simpa [isLanguageChar] using known
  · cases h

theorem pseudoFunction_isFollower {start stop : Nat} {name : String} {argument text : List Char} {simple : Simple}
    (h : pseudoFunction start stop name argument = .ok simple) : simple.IsFollower text := by
  unfold pseudoFunction at h
  split at h
  · exact language_isFollower h
  · split at h
    · split at h
      · obtain rfl := Except.ok.inj h
        exact ⟨trivial, rfl⟩
      · cases h
    · cases h

theorem pseudo_isFollower {pos : Nat} {text : List Char} {simple : Simple} {n : Nat}
    (h : pseudo pos text = .ok ⟨.simple simple, n⟩) : simple.IsFollower text := by
  generalize same : (⟨.simple simple, n⟩ : Scan Pseudo) = s at h
  cases pseudo_form h with
  | element _ read =>
      obtain ⟨element, rfl⟩ := pseudoElement_form read
      obtain rfl := Pseudo.simple.inj (Scan.mk.inj same).1
      exact ⟨trivial, rfl⟩
  | negation _ _ _ _ => cases (Scan.mk.inj same).1
  | function _ _ _ _ read =>
      obtain rfl := Pseudo.simple.inj (Scan.mk.inj same).1
      exact pseudoFunction_isFollower read
  | plain _ _ read =>
      obtain ⟨pseudo, rfl⟩ := plainPseudoClass_form read
      obtain rfl := Pseudo.simple.inj (Scan.mk.inj same).1
      exact ⟨trivial, rfl⟩

/-! Compounds. -/

/-- Texts shorter than that are read as simple selectors that may stand anywhere in a compound. -/
def FollowersRead (length : Nat) : Prop := ∀ text, text.length < length → ∀ pos s, simples pos text = .ok s →
  ∀ simple ∈ s.value, simple.IsFollower text

theorem FollowersRead.mono {length shorter : Nat} (h : FollowersRead length) (le : shorter ≤ length) :
    FollowersRead shorter := fun text size => h text (size.trans_le le)

theorem typeSelector_form {pos : Nat} {text : List Char} {s : Scan Compound} (h : typeSelector pos text = .ok s) :
    s.value = [] ∨ ∃ simple, s.value = [simple] ∧ simple.IsLawful text := by
  unfold typeSelector at h
  split at h
  · obtain rfl := Except.ok.inj h
    exact .inr ⟨.universal, rfl, trivial⟩
  · split at h
    · obtain ⟨name, found, rfl⟩ := map_eq_ok h
      exact .inr ⟨.element name.value, rfl, ident_isNameIn found⟩
    · obtain rfl := Except.ok.inj h
      exact .inl rfl

theorem FollowersRead.compound {text : List Char} (ih : FollowersRead (text.length + 1)) {pos : Nat} {s : Scan Compound}
    (h : compound pos text = .ok s) : Compound.IsLawful text s.value := by
  obtain ⟨start, more, front, back, some, rfl⟩ := compound_form h
  have shorter : (text.drop start.size).length < text.length + 1 := by
    rw [List.length_drop]
    omega
  have followers : ∀ simple ∈ more.value, simple.IsFollower text := fun simple mem =>
    (ih _ shorter _ _ back simple mem).mono (List.drop_subset _ _)
  rcases typeSelector_form front with none | ⟨first, one, lawful⟩
  · rw [none, List.nil_append] at some
    refine ⟨by rwa [none], ?_, ?_⟩
    · intro simple mem
      rw [none, List.nil_append] at mem
      exact (followers simple (List.mem_of_mem_tail mem)).2
    · intro simple mem
      rw [none, List.nil_append] at mem
      exact (followers simple mem).1
  · refine ⟨some, ?_, ?_⟩
    · intro simple mem
      rw [one, List.singleton_append, List.tail_cons] at mem
      exact (followers simple mem).2
    · intro simple mem
      rw [one, List.singleton_append, List.mem_cons] at mem
      rcases mem with rfl | mem
      · exact lawful
      · exact (followers simple mem).1

theorem isNegatable_of {simple : Simple} (negation : ∀ a, simple ≠ .negation a)
    (element : ∀ e, simple ≠ .pseudoElement e) : simple.isNegatable = true := by
  cases simple with
  | negation a => exact absurd rfl (negation a)
  | pseudoElement e => exact absurd rfl (element e)
  | _ => rfl

theorem FollowersRead.negated {argument : List Char} (ih : FollowersRead (argument.length + 1)) {pos : Nat}
    {simple : Simple} (h : negated pos argument = .ok simple) : (Simple.negation simple).IsFollower argument := by
  obtain ⟨-, inner, read, -, alone⟩ := negated_form h
  obtain ⟨one, negation, element⟩ := single_form alone
  have inside : Text.trim argument ⊆ argument := by
    obtain ⟨before, behind, parts, -, -⟩ := Text.trim_parts argument
    intro c mem
    rw [parts]
    simp [mem]
  have lawful := (ih.mono (Nat.succ_le_succ (Text.length_trim_le argument))).compound read
  have only : simple ∈ inner.value := one ▸ List.mem_singleton_self simple
  exact ⟨⟨isNegatable_of negation element, (lawful.simples simple only).mono inside⟩, rfl⟩

theorem followersRead (length : Nat) : FollowersRead length := by
  -- on the length, since the argument of a negation is taken from the middle of the text
  induction length with
  | zero => exact fun _ size => absurd size (Nat.not_lt_zero _)
  | succ length ih =>
      intro text size pos s h
      -- what is read first, and all that is read behind it
      have step {c : Char} {rest : List Char} {n next : Nat} {simple : Simple} {more : Scan Compound}
          (size : (c :: rest).length < length + 1) (first : simple.IsFollower rest)
          (tail : simples next (rest.drop n) = .ok more) :
          ∀ other ∈ simple :: more.value, other.IsFollower (c :: rest) := by
        have shorter : (rest.drop n).length < length := by
          rw [List.length_cons] at size
          rw [List.length_drop]
          omega
        intro other mem
        refine Simple.IsFollower.mono ?_ (List.subset_cons_self c rest)
        rcases List.mem_cons.mp mem with rfl | mem
        · exact first
        · exact (ih _ shorter _ _ tail other mem).mono (List.drop_subset n rest)
      cases simples_form h with
      | stop _ _ =>
          intro simple mem
          cases mem
      | pseudo read tail => exact step size (pseudo_isFollower read) tail
      | @negation rest simple start width _ _ read argument tail =>
          have part : (rest.drop start).take width ⊆ rest := fun d mem =>
            List.mem_of_mem_drop (List.mem_of_mem_take mem)
          have fewer : ((rest.drop start).take width).length + 1 ≤ length := by
            rw [List.length_cons] at size
            rw [List.length_take, List.length_drop]
            omega
          exact step size (((ih.mono fewer).negated argument).mono part) tail
      | className found tail => exact step size ⟨ident_isNameIn found, rfl⟩ tail
      | id found tail => exact step size ⟨name_isNameIn found, rfl⟩ tail
      | @nesting rest _ tail => exact step (n := 0) size ⟨trivial, rfl⟩ tail
      | hasAttribute found tail => exact step size (attributeSelector_isFollower found) tail

theorem compound_isLawful {pos : Nat} {text : List Char} {s : Scan Compound} (h : compound pos text = .ok s) :
    Compound.IsLawful text s.value := (followersRead (text.length + 1)).compound h

/-! Selectors. -/

theorem links_areLawful {length : Nat} {text : List Char} (size : text.length < length) {pos : Nat}
    {s : Scan (List (Combinator × Compound))} (h : links pos text = .ok s) :
    ∀ link ∈ s.value, Compound.IsLawful text link.2 := by
  induction length generalizing text pos s with
  | zero => cases size
  | succ length ih =>
      cases links_form h with
      | stop _ =>
          intro link mem
          cases mem
      | @link sign m n parts more found same some _ read tail =>
          have progress := joint_progress found
          rw [bne_iff_ne] at progress
          have shorter : (text.drop (n + parts.size)).length < length := by
            have inside := List.length_pos_iff.mpr some
            simp only [List.length_drop] at inside ⊢
            omega
          intro link mem
          rcases List.mem_cons.mp mem with rfl | mem
          · exact (compound_isLawful read).mono (List.drop_subset n text)
          · exact (ih shorter tail link mem).mono (List.drop_subset _ text)

theorem complex_isLawful {pos : Nat} {text : List Char} {s : Scan Complex} (h : complex pos text = .ok s) :
    s.value.IsLawful text := by
  obtain ⟨first, more, read, tail, rfl⟩ := complex_form h
  refine ⟨by simp [Complex.combinators, Complex.compounds], ?_⟩
  intro compound mem
  rcases List.mem_cons.mp mem with rfl | mem
  · exact compound_isLawful read
  · obtain ⟨link, behind, rfl⟩ := List.mem_map.mp mem
    exact (links_areLawful (Nat.lt_succ_self _) tail link behind).mono (List.drop_subset _ text)

theorem Complex.IsLawful.mono {part text : List Char} {selector : Complex} (h : selector.IsLawful part)
    (sub : part ⊆ text) : selector.IsLawful text :=
  ⟨h.joined, fun compound mem => (h.compounds compound mem).mono sub⟩

theorem selectors_areLawful {length : Nat} {text : List Char} (size : text.length < length) {pos : Nat}
    {list : List Complex} (h : selectors pos text = .ok list) :
    list ≠ [] ∧ ∀ selector ∈ list, selector.IsLawful text := by
  induction length generalizing text pos list with
  | zero => cases size
  | succ length ih =>
      cases selectors_form h with
      | @last first found _ =>
          refine ⟨List.cons_ne_nil _ _, ?_⟩
          intro selector mem
          rw [List.mem_singleton.mp mem]
          exact (complex_isLawful found).mono (List.drop_subset _ text)
      | @more first c rest list found goesOn read =>
          have behind : rest ⊆ text := by
            intro d mem
            exact List.drop_subset _ text (goesOn ▸ List.mem_cons_of_mem c mem)
          have shorter : rest.length < length := by
            have whole := congrArg List.length goesOn
            rw [List.length_drop, List.length_cons] at whole
            omega
          refine ⟨List.cons_ne_nil _ _, ?_⟩
          intro selector mem
          rcases List.mem_cons.mp mem with rfl | mem
          · exact (complex_isLawful found).mono (List.drop_subset _ text)
          · exact ((ih shorter read).2 selector mem).mono behind

/-- Everything that is accepted is lawful. -/
theorem parse_lawful {text : String} {list : List Complex} (accepted : parse text = .ok list) :
    list ≠ [] ∧ ∀ selector ∈ list, selector.IsLawful text.toList :=
  selectors_areLawful (Nat.lt_succ_self _) accepted

/-- An escape puts a character of zero width into a name; elsewhere such a character is no part of one. -/
theorem parse_lawful_escaped :
    parse "a\\200b .b:not(#c) ~ *:lang( en-GB ),[d]" = .ok
        [⟨[.element "a\u200b", .className "b", .negation (.id "c")], [(.laterSibling, [.universal, .language "en-GB"])]⟩,
          ⟨[.hasAttribute "d" none], []⟩] ∧
      [⟨[.element "a\u200b", .className "b", .negation (.id "c")], [(.laterSibling, [.universal, .language "en-GB"])]⟩,
          ⟨[.hasAttribute "d" none], []⟩] ≠ ([] : List Complex) ∧
        ∀ selector ∈ ([⟨[.element "a\u200b", .className "b", .negation (.id "c")],
              [(.laterSibling, [.universal, .language "en-GB"])]⟩, ⟨[.hasAttribute "d" none], []⟩] : List Complex),
          selector.IsLawful "a\\200b .b:not(#c) ~ *:lang( en-GB ),[d]".toList := by
  have accepted : parse "a\\200b .b:not(#c) ~ *:lang( en-GB ),[d]" = .ok
      [⟨[.element "a\u200b", .className "b", .negation (.id "c")], [(.laterSibling, [.universal, .language "en-GB"])]⟩,
        ⟨[.hasAttribute "d" none], []⟩] := by cbv
  exact ⟨accepted, parse_lawful accepted⟩

end StyleAudit.Selector
