import StyleAudit.Proofs.AcceptedSelectors
import StyleAudit.Proofs.SelectorWriting
/-!
Where simple selectors end in the text of a selector list. There the text falls into two parts, and what stands on each
side is sound items of its own.
-/
namespace StyleAudit.Selector

open Text (Scan)

/-! Places in a text, as the grammar comes by them. -/

/-- Behind the white space at a place. -/
def behindSpaces (text : List Char) (n : Nat) : Nat := n + spaces (text.drop n)

/-- A compound of a selector list starts that many characters into the text. -/
inductive CompoundAt (text : List Char) : Nat → Prop
  | first : CompoundAt text (behindSpaces text 0)
  | joined {k m : Nat} {parts : Scan Compound} {sign : Combinator} : CompoundAt text k →
      compound k (text.drop k) = .ok parts →
      joint (spaces (text.drop (k + parts.size)) != 0) (text.drop (behindSpaces text (k + parts.size))) =
        (.combinator sign, m) →
      CompoundAt text (behindSpaces text (behindSpaces text (k + parts.size) + m))
  | listed {k : Nat} {parts : Scan Compound} : CompoundAt text k → compound k (text.drop k) = .ok parts →
      (text.drop (behindSpaces text (k + parts.size))).head? = some ',' →
      CompoundAt text (behindSpaces text (behindSpaces text (k + parts.size) + 1))

/-- A simple selector other than a type selector stands at the start of a text, with its size. -/
inductive SimpleAt (pos : Nat) : List Char → Simple → Nat → Prop
  | pseudo {rest : List Char} {simple : Simple} {n : Nat} : pseudo (pos + 1) rest = .ok ⟨.simple simple, n⟩ →
      SimpleAt pos (':' :: rest) simple (1 + n)
  | negation {rest : List Char} {simple : Simple} {start size n : Nat} :
      Selector.pseudo (pos + 1) rest = .ok ⟨.negation start size, n⟩ →
      negated (pos + 1 + start) ((rest.drop start).take size) = .ok simple →
      SimpleAt pos (':' :: rest) (.negation simple) (1 + n)
  | className {rest : List Char} {name : Scan String} : ident .className (pos + 1) rest = .ok name →
      SimpleAt pos ('.' :: rest) (.className name.value) (1 + name.size)
  | id {rest : List Char} {word : Scan String} : name .id (pos + 1) rest = .ok word →
      SimpleAt pos ('#' :: rest) (.id word.value) (1 + word.size)
  | nesting {rest : List Char} : SimpleAt pos ('&' :: rest) .nesting (1 + 0)
  | hasAttribute {rest : List Char} {test : Scan Simple} : attributeSelector (pos + 1) rest = .ok test →
      SimpleAt pos ('[' :: rest) test.value (1 + test.size)

/-- A compound goes on that many characters into the text, behind its type selector if it has one. -/
inductive WithinCompound (text : List Char) : Nat → Prop
  | start {k : Nat} {type : Scan Compound} : CompoundAt text k → typeSelector k (text.drop k) = .ok type →
      WithinCompound text (k + type.size)
  | simple {k n : Nat} {simple : Simple} : WithinCompound text k → SimpleAt k (text.drop k) simple n →
      WithinCompound text (k + n)

/-- A simple selector that is not in the argument of a negation ends that many characters into the text of a selector
list. -/
inductive SimpleEndsAt (text : List Char) : Nat → Prop
  | type {k : Nat} {type : Scan Compound} : CompoundAt text k → typeSelector k (text.drop k) = .ok type →
      type.value ≠ [] → SimpleEndsAt text (k + type.size)
  | simple {k n : Nat} {simple : Simple} : WithinCompound text k → SimpleAt k (text.drop k) simple n →
      SimpleEndsAt text (k + n)

theorem SimpleEndsAt.within {text : List Char} {n : Nat} (h : SimpleEndsAt text n) : WithinCompound text n := by
  cases h with
  | type compound read _ => exact .start compound read
  | simple within simple => exact .simple within simple

/-! One simple selector. -/

section
variable {text : List Char} {simple : Simple} {pos n : Nat}

/-- Simple selectors are read one after the other. -/
theorem SimpleAt.simples_eq (h : SimpleAt pos text simple n) :
    simples pos text = (simples (pos + n) (text.drop n)).map (Scan.behind n (simple :: ·)) := by
  cases h with
  | pseudo read => rw [simples_pseudo read, drop_cons_add]
  | negation read argument => rw [simples_negation read argument, drop_cons_add]
  | className found =>
      rw [drop_cons_add]
      exact simples_piece (by rw [if_pos rfl, found]; rfl) (.inl rfl)
  | id found =>
      rw [drop_cons_add]
      exact simples_piece (by rw [if_neg (by decide), if_pos rfl, found]; rfl) (.inr (.inl rfl))
  | nesting =>
      rw [drop_cons_add]
      exact simples_piece (by rw [if_neg (by decide), if_neg (by decide), if_pos rfl]) (.inr (.inr (.inl rfl)))
  | hasAttribute found =>
      rw [drop_cons_add]
      exact simples_piece (by rw [if_neg (by decide), if_neg (by decide), if_neg (by decide), found])
        (.inr (.inr (.inr rfl)))

theorem SimpleAt.covered (h : SimpleAt pos text simple n) (hu : IsUnquoted text) : IsCovered text n := by
  cases h with
  | pseudo read =>
      obtain ⟨site, reads⟩ := pseudo_simple hu.tail read
      exact ⟨_, reads.covers⟩
  | negation read argument =>
      obtain ⟨items, covers, -⟩ := negation_reads (simplesRead _) (Nat.lt_succ_self _) hu read argument
      exact ⟨items, covers⟩
  | className found => exact ((Passes.one (by decide)).add (passes_ident hu.tail found)).isCovered
  | id found => exact ((Passes.one (by decide)).add (passes_name hu.tail found)).isCovered
  | @nesting rest => exact ((Passes.one (by decide)).add (.zero rest)).isCovered
  | hasAttribute found => exact ((Passes.one (by decide)).add (passes_attributeSelector hu.tail found)).isCovered

end

/-! What is still to be read at a place. -/

/-- Behind a compound its selector goes on, and then the list. -/
def GoesOn (text : List Char) (n : Nat) : Prop :=
  ∃ more, links n (text.drop n) = .ok more ∧ (text.drop (n + more.size) = [] ∨
    ∃ c rest list, text.drop (n + more.size) = c :: rest ∧ selectors (n + more.size + 1) rest = .ok list)

section
variable {text : List Char} {k n m : Nat} {list : List Complex}

theorem selectors_goOn (h : selectors n (text.drop n) = .ok list) :
    ∃ parts, compound (behindSpaces text n) (text.drop (behindSpaces text n)) = .ok parts ∧
      GoesOn text (behindSpaces text n + parts.size) := by
  have head {first : Scan Complex}
      (found : complex (n + spaces (text.drop n)) ((text.drop n).drop (spaces (text.drop n))) = .ok first)
      (tail : text.drop (behindSpaces text n + first.size) = [] ∨ ∃ c rest list,
        text.drop (behindSpaces text n + first.size) = c :: rest ∧
          selectors (behindSpaces text n + first.size + 1) rest = .ok list) :
      ∃ parts, compound (behindSpaces text n) (text.drop (behindSpaces text n)) = .ok parts ∧
        GoesOn text (behindSpaces text n + parts.size) := by
    obtain ⟨parts, more, read, behind, rfl⟩ := complex_form found
    rw [List.drop_drop] at read behind
    rw [List.drop_drop, ← Nat.add_assoc] at behind
    refine ⟨parts, read, more, behind, ?_⟩
    rw [behindSpaces, Nat.add_assoc]
    simpa [behindSpaces, Nat.add_assoc] using tail
  cases selectors_form h with
  | last found done =>
      refine head found (.inl ?_)
      rwa [List.drop_drop, ← Nat.add_assoc] at done
  | more found goesOn read =>
      rw [List.drop_drop, ← Nat.add_assoc] at goesOn
      rw [← Nat.add_assoc, ← Nat.add_assoc] at read
      exact head found (.inr ⟨_, _, _, goesOn, read⟩)

/-- A combinator is followed by a compound. -/
theorem GoesOn.joined {sign : Combinator} (h : GoesOn text n)
    (found : joint (spaces (text.drop n) != 0) (text.drop (behindSpaces text n)) = (.combinator sign, m)) :
    ∃ parts, compound (behindSpaces text (behindSpaces text n + m)) (text.drop (behindSpaces text (behindSpaces text n + m))) =
        .ok parts ∧ GoesOn text (behindSpaces text (behindSpaces text n + m) + parts.size) := by
  obtain ⟨more, read, tail⟩ := h
  cases links_form read with
  | stop other =>
      rw [List.drop_drop, ← behindSpaces, found] at other
      cases other
  | @link sign' m' size parts later other same visible comma inside behind =>
      rw [List.drop_drop, ← behindSpaces, found] at other
      obtain ⟨-, rfl⟩ := Prod.mk.inj other
      have place : behindSpaces text (behindSpaces text n + m) = n + size := by
        rw [same, behindSpaces, behindSpaces, List.drop_drop]
        simp only [Nat.add_assoc]
      rw [List.drop_drop, ← place] at inside
      rw [List.drop_drop, ← Nat.add_assoc, ← place] at behind
      rw [Scan.behind_size, ← Nat.add_assoc, ← Nat.add_assoc, ← place] at tail
      exact ⟨parts, inside, later, behind, tail⟩

/-- A comma is followed by a selector. -/
theorem GoesOn.listed (h : GoesOn text n) (comma : (text.drop (behindSpaces text n)).head? = some ',') :
    ∃ parts, compound (behindSpaces text (behindSpaces text n + 1)) (text.drop (behindSpaces text (behindSpaces text n + 1))) =
        .ok parts ∧ GoesOn text (behindSpaces text (behindSpaces text n + 1) + parts.size) := by
  obtain ⟨rest, comma⟩ := List.head?_eq_some_iff.mp comma
  obtain ⟨more, read, tail⟩ := h
  cases links_form read with
  | stop =>
      rcases tail with done | ⟨c, rest', list, start, more⟩
      · rw [← behindSpaces, comma] at done
        cases done
      · rw [← behindSpaces] at start more
        have behind : text.drop (behindSpaces text n + 1) = rest' := by
          rw [← List.drop_drop, start]
          rfl
        rw [← behind] at more
        exact selectors_goOn more
  | link other =>
      rw [List.drop_drop, ← behindSpaces, comma] at other
      cases other

theorem GoesOn.covered (h : GoesOn text n) (hu : IsUnquoted text) :
    IsCovered (text.drop n) (text.drop n).length := by
  obtain ⟨more, read, tail⟩ := h
  obtain ⟨front, ends⟩ := links_covered (Nat.lt_succ_self _) (hu.drop n) read
  obtain ⟨items, covers⟩ := front
  rw [List.drop_drop] at ends
  rcases tail with done | ⟨c, rest, list, start, more'⟩
  · rw [← List.drop_drop] at done
    rw [Nat.le_antisymm (List.drop_eq_nil_iff.mp done) covers.size]
    exact ⟨items, covers⟩
  · obtain rfl := ends c (by rw [start]; rfl)
    have unquoted := hu.drop (n + more.size)
    rw [start] at unquoted
    have comma : Passes (',' :: rest) 1 := .one (by decide)
    have later : IsCovered rest rest.length := selectors_covered (Nat.lt_succ_self _) unquoted.tail more'
    have back : IsCovered (',' :: rest) (1 + rest.length) := comma.isCovered.add later
    rw [← start, ← List.drop_drop] at back
    have whole := IsCovered.add ⟨items, covers⟩ back
    have total : more.size + (1 + rest.length) = (text.drop n).length := by
      have size := covers.size
      have length := congrArg List.length start
      simp only [List.length_drop, List.length_cons] at length size ⊢
      omega
    rwa [total] at whole

/-- A text in front of which a name ends, and behind a name no argument starts. -/
def StartsBehind (text : List Char) : Prop := StopsAt (fun c => isWordChar c || c == '(') text

theorem startsBehind_space {c : Char} {rest : List Char} (h : isSpace c = true) : StartsBehind (c :: rest) := by
  refine .cons ?_
  rw [isSpace_iff] at h
  rw [Bool.or_eq_false_iff, Bool.eq_false_iff, ne_eq, isWordChar_iff, beq_eq_false_iff_ne, Ne, char_eq_iff]
  change _ ∧ c.toNat ≠ 40
  omega

theorem links_startsBehind {pos : Nat} {s : Scan (List (Combinator × Compound))} (h : links pos text = .ok s) :
    StartsBehind text := by
  have joint_starts {found : Joint} {m : Nat} (other : ∀ c, found ≠ .unexpected c)
      (read : joint (spaces text != 0) (text.drop (spaces text)) = (found, m)) : StartsBehind text := by
    cases text with
    | nil => exact .nil
    | cons c text =>
        cases space : isSpace c with
        | true => exact startsBehind_space space
        | false =>
            have none : spaces (c :: text) = 0 := by rw [spaces, List.takeWhile_cons, space]; rfl
            rw [none, List.drop_zero] at read
            unfold joint at read
            split at read
            · next same => cases same
            all_goals first
              | (next same => obtain ⟨rfl, -⟩ := List.cons.inj same; exact .cons (by decide))
              | (cases read; exact absurd rfl (other _))
  cases links_form h with
  | stop found => exact joint_starts (fun c same => by cases same) found
  | link found => exact joint_starts (fun c same => by cases same) found

theorem simples_startsBehind {s : Scan Compound} (h : simples n (text.drop n) = .ok s) (tail : GoesOn text (n + s.size)) :
    StartsBehind (text.drop n) := by
  have mark {c : Char} {rest : List Char} (hc : (isWordChar c || c == '(') = false) : StartsBehind (c :: rest) := .cons hc
  generalize same : text.drop n = behind at h ⊢
  cases simples_form h with
  | stop =>
      obtain ⟨more, read, -⟩ := tail
      rw [← same]
      exact links_startsBehind read
  | pseudo => exact mark (by decide)
  | negation => exact mark (by decide)
  | className => exact mark (by decide)
  | id => exact mark (by decide)
  | nesting => exact mark (by decide)
  | hasAttribute => exact mark (by decide)

end

/-! The parts of an accepted text. -/

section
variable {text : List Char} {list : List Complex} {n : Nat}

theorem CompoundAt.goesOn (hs : selectors 0 text = .ok list) (h : CompoundAt text n) :
    ∃ parts, compound n (text.drop n) = .ok parts ∧ GoesOn text (n + parts.size) := by
  have same {k : Nat} {parts parts' : Scan Compound} (read : compound k (text.drop k) = .ok parts)
      (read' : compound k (text.drop k) = .ok parts') : parts' = parts :=
    Except.ok.inj (read'.symm.trans read)
  induction h with
  | first => exact selectors_goOn hs
  | joined _ read found ih =>
      obtain ⟨parts, read', goesOn⟩ := ih
      obtain rfl := same read read'
      exact goesOn.joined found
  | listed _ read comma ih =>
      obtain ⟨parts, read', goesOn⟩ := ih
      obtain rfl := same read read'
      exact goesOn.listed comma

theorem IsCovered.behindSpaces {text : List Char} {n : Nat} (h : IsCovered text n) :
    IsCovered text (behindSpaces text n) :=
  h.add (passes_spaces (text.drop n)).isCovered

theorem CompoundAt.covered (hu : IsUnquoted text) (h : CompoundAt text n) : IsCovered text n := by
  induction h with
  | first => exact (Passes.zero text).isCovered.behindSpaces
  | joined _ read found ih =>
      have front := (ih.add (compound_covered (hu.drop _) read)).behindSpaces
      exact (front.add (passes_joint found).isCovered).behindSpaces
  | @listed k parts _ read comma ih =>
      have front := (ih.add (compound_covered (hu.drop _) read)).behindSpaces
      obtain ⟨rest, comma⟩ := List.head?_eq_some_iff.mp comma
      have one : Passes (text.drop (Selector.behindSpaces text (k + parts.size))) 1 := by
        rw [comma]
        exact .one (by decide)
      exact (front.add one.isCovered).behindSpaces

theorem WithinCompound.goesOn (hs : selectors 0 text = .ok list) (h : WithinCompound text n) :
    ∃ more, simples n (text.drop n) = .ok more ∧ GoesOn text (n + more.size) := by
  induction h with
  | start compound read =>
      obtain ⟨parts, found, goesOn⟩ := compound.goesOn hs
      obtain ⟨type, more, read', behind, -, rfl⟩ := compound_form found
      obtain rfl := Except.ok.inj (read'.symm.trans read)
      rw [List.drop_drop] at behind
      rw [← Nat.add_assoc] at goesOn
      exact ⟨more, behind, goesOn⟩
  | simple _ simple ih =>
      obtain ⟨more, read, goesOn⟩ := ih
      rw [simple.simples_eq, List.drop_drop] at read
      obtain ⟨later, behind, rfl⟩ := map_eq_ok read
      rw [Scan.behind_size, ← Nat.add_assoc] at goesOn
      exact ⟨later, behind, goesOn⟩

theorem WithinCompound.covered (hu : IsUnquoted text) (h : WithinCompound text n) : IsCovered text n := by
  induction h with
  | start compound read => exact (compound.covered hu).add (passes_typeSelector (hu.drop _) read).isCovered
  | simple _ simple ih => exact ih.add (simple.covered (hu.drop _))

/-- Two rows of sound items that make up a text between which a pseudo can stand. -/
structure Parts (text : List Char) (n : Nat) (front back : List Item) : Prop where
  taken : text.take n = textOf front
  dropped : text.drop n = textOf back
  soundFront : AreSound (textOf back).head? front
  soundBack : AreSound none back
  undamagedFront : damageOf front = []
  undamagedBack : damageOf back = []
  apart : StartsBehind (textOf back)

/-- Where a simple selector ends, an accepted text falls into two parts. -/
theorem SimpleEndsAt.parts (hu : IsUnquoted text) (hs : selectors 0 text = .ok list) (h : SimpleEndsAt text n) :
    ∃ front back, Parts text n front back := by
  obtain ⟨front, covers⟩ := h.within.covered hu
  obtain ⟨more, read, goesOn⟩ := h.within.goesOn hs
  have starts := simples_startsBehind read goesOn
  obtain ⟨items, inside, -⟩ := simplesRead _ _ (Nat.lt_succ_self _) (hu.drop n) _ _ read
  have later := goesOn.covered hu
  rw [← List.drop_drop] at later
  obtain ⟨back, covers'⟩ := IsCovered.add ⟨items, inside⟩ later
  have size := inside.size
  have total : more.size + ((text.drop n).drop more.size).length = (text.drop n).length := by
    rw [List.length_drop (l := text.drop n)]
    omega
  rw [total] at covers'
  have text_ := covers'.taken
  have sound := covers'.sound
  rw [List.take_length] at text_
  rw [List.drop_length] at sound
  have soundFront := covers.sound
  rw [text_] at soundFront starts
  exact ⟨front, back, covers.taken, text_, soundFront, sound, covers.undamaged, covers'.undamaged, starts⟩

end
end StyleAudit.Selector
