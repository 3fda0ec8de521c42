import StyleAudit.Proofs.SelectorWriting
/-!
The usual notation of selector lists, and that the grammar reads it back. White space is free around combinators and
commas and at both ends.
-/
namespace StyleAudit.Selector

open Text (Scan)

def Complex.WellFormed (selector : Complex) : Prop := ∀ compound ∈ selector.compounds, Compound.WellFormed compound

/-- What stands between two compounds: white space for a descendant, or else a sign with white space around it. -/
inductive Between : Combinator → List Char → Prop
  | descendant {blank : List Char} : IsBlank blank → blank ≠ [] → Between .descendant blank
  | sign {combinator : Combinator} {before after : List Char} : combinator ≠ .descendant →
      IsBlank before → IsBlank after → Between combinator (before ++ (combinator.sign.toList ++ after))

inductive LinksWritten : List (Combinator × Compound) → List Char → Prop
  | none : LinksWritten [] []
  | link {combinator : Combinator} {compound : Compound} {rest : List (Combinator × Compound)}
      {between text : List Char} : Between combinator between → LinksWritten rest text →
      LinksWritten ((combinator, compound) :: rest) (between ++ (Compound.written compound ++ text))

inductive ComplexWritten : Complex → List Char → Prop
  | chain {selector : Complex} {text : List Char} : LinksWritten selector.links text →
      ComplexWritten selector (Compound.written selector.first ++ text)

/-- White space is free around commas and at both ends of a list. -/
inductive ListWritten : List Complex → List Char → Prop
  | last {selector : Complex} {before text after : List Char} : IsBlank before → ComplexWritten selector text →
      IsBlank after → ListWritten [selector] (before ++ (text ++ after))
  | more {selector : Complex} {rest : List Complex} {before text after tail : List Char} : IsBlank before →
      ComplexWritten selector text → IsBlank after → ListWritten rest tail →
      ListWritten (selector :: rest) (before ++ (text ++ (after ++ ',' :: tail)))

theorem Compound.written_starts {parts : Compound} (hw : Compound.WellFormed parts) :
    ∃ c more, Compound.written parts = c :: more ∧ extendsCompound c = true := by
  cases parts with
  | nil => exact absurd rfl hw.some
  | cons first more =>
      rw [Compound.written_cons]
      cases ht : first.isType with
      | false =>
          obtain ⟨c, tail, same, begins⟩ := Simple.written_begins ht
          exact ⟨c, tail ++ Compound.written more, by rw [same]; rfl, by simp [extendsCompound, begins]⟩
      | true =>
          cases first with
          | element name =>
              have word : (Simple.element name).WellFormed := hw.simples _ (by simp)
              obtain ⟨c, tail, same, _⟩ := identifier_noColon word
              have letter := isNameChar_of_isWordChar ((isIdentifier_spec word).1 c (by simp [same]))
              exact ⟨c, tail ++ Compound.written more, by rw [Simple.written, same]; rfl,
                by simp [extendsCompound, extendsSimple, extendsName, letter]⟩
          | universal => exact ⟨'*', Compound.written more, rfl, by decide⟩
          | _ => cases ht

theorem extendsCompound_of_isSpace {c : Char} (h : isSpace c = true) : extendsCompound c = false := by
  simp only [isSpace, Bool.or_eq_true, beq_iff_eq, or_assoc] at h
  rcases h with rfl | rfl | rfl | rfl | rfl <;> decide

theorem isSpace_of_extendsCompound {c : Char} (h : extendsCompound c = true) : isSpace c = false := by
  cases hs : isSpace c with
  | false => rfl
  | true => rw [extendsCompound_of_isSpace hs] at h; cases h

theorem joint_compound {c : Char} (h : extendsCompound c = true) (blank : Bool) (text : List Char) :
    joint blank (c :: text) = (if blank then .combinator .descendant else .unexpected c, 0) := by
  have sign {d : Char} (hd : extendsCompound d = false) : c ≠ d := by
    rintro rfl
    rw [hd] at h
    cases h
  unfold joint
  split
  · next same => cases same
  · next same => exact absurd (List.cons.inj same).1 (sign rfl)
  · next same => exact absurd (List.cons.inj same).1 (sign rfl)
  · next same => exact absurd (List.cons.inj same).1 (sign rfl)
  · next same => exact absurd (List.cons.inj same).1 (sign rfl)
  · next same => exact absurd (List.cons.inj same).1 (sign rfl)
  · next same =>
      obtain ⟨rfl, rfl⟩ := List.cons.inj same
      rfl

/-- How what stands between two compounds is taken: white space, a sign, and white space again. -/
theorem Between.read {combinator : Combinator} {between : List Char} {c : Char} (h : Between combinator between)
    (hc : extendsCompound c = true) (rest : List Char) :
    ∃ n m k, between.length = n + m + k ∧ spaces (between ++ c :: rest) = n ∧
      joint (n != 0) ((between ++ c :: rest).drop n) = (.combinator combinator, m) ∧
      spaces ((between ++ c :: rest).drop (n + m)) = k := by
  have noBlank : StopsAt isSpace (c :: rest) := .cons (isSpace_of_extendsCompound hc)
  cases h with
  | descendant blank some =>
      refine ⟨between.length, 0, 0, rfl, spaces_append blank noBlank, ?_, ?_⟩
      · have spaced : (between.length != 0) = true := by simpa using some
        rw [List.drop_left, joint_compound hc, spaced]
        rfl
      · rw [Nat.add_zero, List.drop_left, spaces_none noBlank]
  | @sign _ before after other hb ha =>
      refine ⟨before.length, combinator.sign.toList.length, after.length, by simp [Nat.add_assoc], ?_, ?_, ?_⟩
      · rw [List.append_assoc]
        refine spaces_append hb ?_
        cases combinator <;> first | exact absurd rfl other | exact .cons (by decide)
      · rw [List.append_assoc, List.drop_left]
        cases combinator <;> first | exact absurd rfl other | rfl
      · rw [List.append_assoc, ← List.drop_drop, List.drop_left, List.append_assoc, List.drop_left,
          spaces_append ha noBlank]

/-- A combinator and a compound behind it are taken together, whatever the compound was read from. -/
theorem links_joined {combinator : Combinator} {parts : Compound} {between word rest : List Char} {pos : Nat}
    (h : Between combinator between) (starts : ∃ c more, word = c :: more ∧ extendsCompound c = true)
    (read : compound (pos + between.length) (word ++ rest) = .ok ⟨parts, word.length⟩) :
    links pos (between ++ (word ++ rest)) =
      (links (pos + (between.length + word.length)) rest).map
        (Scan.behind (between.length + word.length) ((combinator, parts) :: ·)) := by
  obtain ⟨c, more, same, start⟩ := starts
  obtain ⟨n, m, k, size, before, join, after⟩ := h.read start (more ++ rest)
  rw [← List.cons_append, ← same] at before join after
  have comma : c ≠ ',' := by
    rintro rfl
    cases start
  subst before
  rw [links.eq_def]
  dsimp only
  split
  · next e => rw [join] at e; cases e
  · next e => rw [join] at e; cases e
  · next e =>
      -- the case of the function that agrees with what was read between the compounds
      rw [join] at e
      obtain ⟨rfl, rfl⟩ : combinator = _ ∧ m = _ := by simpa using e
      rw [after, ← size, List.drop_left]
      split
      · next tail =>
          rw [same] at tail
          cases tail
      · next d _ tail =>
          rw [same] at tail
          obtain ⟨rfl, -⟩ := List.cons.inj tail
          rw [if_neg comma, read]
          simp only [← List.drop_drop, List.drop_left]

theorem links_step {combinator : Combinator} {parts : Compound} {between rest : List Char}
    (h : Between combinator between) (hw : Compound.WellFormed parts) (hr : StopsAt extendsCompound rest) (pos : Nat) :
    links pos (between ++ (Compound.written parts ++ rest)) =
      (links (pos + (between.length + (Compound.written parts).length)) rest).map
        (Scan.behind (between.length + (Compound.written parts).length) ((combinator, parts) :: ·)) :=
  links_joined h (Compound.written_starts hw) (compound_written hw hr _)

/-- Behind a chain stands the end of the text or a comma. -/
def EndsSelector (text : List Char) : Prop := ∀ c, text.head? = some c → c = ','

theorem IsBlank.stops {blank rest : List Char} (h : IsBlank blank) (hr : StopsAt extendsCompound rest) :
    StopsAt extendsCompound (blank ++ rest) := by
  cases blank with
  | nil => exact hr
  | cons c blank => exact .cons (extendsCompound_of_isSpace (h c (by simp)))

theorem EndsSelector.stops {text : List Char} (h : EndsSelector text) : StopsAt extendsCompound text := by
  intro c hc
  rw [h c hc]
  decide

theorem Between.stops {combinator : Combinator} {between : List Char} (h : Between combinator between)
    (rest : List Char) : StopsAt extendsCompound (between ++ rest) := by
  cases h with
  | descendant blank some =>
      cases between with
      | nil => exact absurd rfl some
      | cons c between => exact .cons (extendsCompound_of_isSpace (blank c (by simp)))
  | sign other hb ha =>
      rw [List.append_assoc]
      refine hb.stops ?_
      cases combinator <;> first | exact absurd rfl other | exact .cons (by decide)

theorem LinksWritten.stops {rest : List (Combinator × Compound)} {text behind : List Char}
    (h : LinksWritten rest text) (hb : StopsAt extendsCompound behind) : StopsAt extendsCompound (text ++ behind) := by
  cases h with
  | none => exact hb
  | link between tail =>
      rw [List.append_assoc]
      exact between.stops _

theorem links_end {after behind : List Char} (ha : IsBlank after) (hb : EndsSelector behind) (pos : Nat) :
    links pos (after ++ behind) = .ok ⟨[], after.length⟩ := by
  have notSpace : StopsAt isSpace behind := by
    intro c hc
    rw [hb c hc]
    decide
  have join : ∀ blank, joint blank behind = (.none, 0) := by
    intro blank
    cases behind with
    | nil => rfl
    | cons c behind =>
        obtain rfl := hb c rfl
        rfl
  rw [links.eq_def]
  simp only [spaces_append ha notSpace]
  split
  · rfl
  · next e => rw [spaces_append ha notSpace, List.drop_left, join] at e; cases e
  · next e => rw [spaces_append ha notSpace, List.drop_left, join] at e; cases e

theorem links_written {rest : List (Combinator × Compound)} {text after behind : List Char}
    (hw : ∀ link ∈ rest, Compound.WellFormed link.2) (h : LinksWritten rest text) (ha : IsBlank after)
    (hb : EndsSelector behind) (pos : Nat) :
    links pos (text ++ (after ++ behind)) = .ok ⟨rest, text.length + after.length⟩ := by
  have stops := ha.stops hb.stops
  induction h generalizing pos with
  | none => simpa using links_end ha hb pos
  | @link combinator parts rest between text hbetween tail ih =>
      have later := ih (fun l hl => hw l (by simp [hl])) (pos + (between.length + (Compound.written parts).length))
      rw [List.append_assoc, List.append_assoc,
        links_step hbetween (hw (combinator, parts) (by simp)) (tail.stops stops), later]
      simp only [Except.map, Scan.behind, List.length_append, Nat.add_assoc]

theorem complex_written {selector : Complex} {text after behind : List Char} (hw : selector.WellFormed)
    (h : ComplexWritten selector text) (ha : IsBlank after) (hb : EndsSelector behind) (pos : Nat) :
    complex pos (text ++ (after ++ behind)) = .ok ⟨selector, text.length + after.length⟩ := by
  obtain ⟨tail⟩ := h
  next text =>
    have first : Compound.WellFormed selector.first := hw _ (by simp [Complex.compounds])
    have later : ∀ link ∈ selector.links, Compound.WellFormed link.2 := by
      intro link hl
      exact hw _ (by simp only [Complex.compounds, List.mem_cons, List.mem_map]; exact .inr ⟨link, hl, rfl⟩)
    rw [complex, List.append_assoc, compound_written first (tail.stops (ha.stops hb.stops))]
    simp only [List.drop_left, links_written later tail ha hb, Except.map, Scan.behind, List.length_append, Nat.add_assoc]

theorem ComplexWritten.starts {selector : Complex} {text : List Char} (hw : selector.WellFormed)
    (h : ComplexWritten selector text) (rest : List Char) : StopsAt isSpace (text ++ rest) := by
  obtain ⟨tail⟩ := h
  obtain ⟨c, more, same, start⟩ := Compound.written_starts (hw selector.first (by simp [Complex.compounds]))
  rw [same]
  exact .cons (isSpace_of_extendsCompound start)

theorem selectors_written {list : List Complex} {text : List Char} (hw : ∀ selector ∈ list, selector.WellFormed)
    (h : ListWritten list text) (pos : Nat) : selectors pos text = .ok list := by
  induction h generalizing pos with
  | @last selector before text after hb written ha =>
      have whole := hw selector (by simp)
      have nothing : EndsSelector [] := by intro c hc; cases hc
      have size := spaces_append hb (written.starts whole after)
      have read := complex_written whole written ha nothing (pos + before.length)
      rw [List.append_nil] at read
      rw [selectors.eq_def]
      simp only [size, List.drop_left, read]
      split
      · rfl
      · next d rest tail =>
          rw [size, ← List.drop_drop, List.drop_left, ← List.length_append, List.drop_length] at tail
          cases tail
  | @more selector rest before text after tail hb written ha _ ih =>
      have whole := hw selector (by simp)
      have comma : EndsSelector (',' :: tail) := by
        intro c hc
        simpa using hc.symm
      have size := spaces_append hb (written.starts whole (after ++ ',' :: tail))
      have read := complex_written whole written ha comma (pos + before.length)
      have behind : (before ++ (text ++ (after ++ ',' :: tail))).drop (before.length + (text.length + after.length)) =
          ',' :: tail := by
        rw [← List.drop_drop, List.drop_left, ← List.drop_drop, List.drop_left, List.drop_left]
      rw [selectors.eq_def]
      simp only [size, List.drop_left, read]
      split
      · next e => rw [size, behind] at e; cases e
      · next d more e =>
          rw [size, behind] at e
          obtain ⟨-, rfl⟩ := List.cons.inj e
          rw [ih fun s hs => hw s (by simp [hs])]
          rfl

/-- A selector list is read back from every way of writing it. -/
theorem parse_written {list : List Complex} {text : List Char} (hw : ∀ selector ∈ list, selector.WellFormed)
    (h : ListWritten list text) : parse (String.ofList text) = .ok list := by
  rw [parse, String.toList_ofList]
  exact selectors_written hw h 0

/-- A negation whose quoted value holds a parenthesis, and white space on one side of a combinator and of a comma. -/
theorem parse_written_links :
    parse (String.ofList "a:not([href^=\"x)\"])> .b ,li:nth-child(2n-1)".toList) =
      .ok [⟨[.element "a", .negation (.hasAttribute "href" (some (.starts, "x)")))], [(.child, [.className "b"])]⟩,
        ⟨[.element "li", .position .nthChild ⟨2, -1⟩], []⟩] := by
  have first : Compound.WellFormed [.element "a", .negation (.hasAttribute "href" (some (.starts, "x)")))] :=
    ⟨by simp, by simp [Simple.WellFormed, Simple.isNegatable, IsQuotable]; decide, by simp [Simple.isType]⟩
  have second : Compound.WellFormed [.className "b"] := ⟨by simp, by simp [Simple.WellFormed]; decide, by simp⟩
  have third : Compound.WellFormed [.element "li", .position .nthChild ⟨2, -1⟩] :=
    ⟨by simp, by simp [Simple.WellFormed]; decide, by simp [Simple.isType]⟩
  have space : IsBlank [' '] := by simp [IsBlank]; decide
  have link : LinksWritten [(.child, [.className "b"])] _ := .link (.sign (by decide) .nil space) .none
  have chain : ComplexWritten ⟨[.element "a", .negation (.hasAttribute "href" (some (.starts, "x)")))], _⟩ _ :=
    .chain link
  have alone : ComplexWritten ⟨[.element "li", .position .nthChild ⟨2, -1⟩], []⟩ _ := .chain .none
  exact parse_written (by simp [Complex.WellFormed, Complex.compounds, first, second, third])
    (.more .nil chain space (.last .nil alone .nil))

end StyleAudit.Selector
