import StyleAudit.Proofs.LocalReading
/-!
Joined lists: the selectors of an accepted list, spelled out, and that they are read again in front of a comma, so that
two lists with a comma between them are one.
-/
namespace StyleAudit.Selector

open Text (Scan)

/-- A word that is read as a compound in front of the rest of its text, and of whatever can stand in its place. -/
structure Spells (word rest : List Char) (parts : Compound) : Prop where
  begins : Begins extendsCompound word
  again : ∀ other, Follows extendsCompound word rest other → ∀ pos,
    compound pos (word ++ other) = .ok ⟨parts, word.length⟩

theorem spells_of_compound {pos : Nat} {text : List Char} {s : Scan Compound} (h : compound pos text = .ok s) :
    ∃ word rest, text = word ++ rest ∧ s.size = word.length ∧ Spells word rest s.value := by
  obtain ⟨word, rest, rfl, begins, read⟩ := compound_local h
  refine ⟨word, rest, rfl, read.size, begins, fun other follows pos' => ?_⟩
  rw [(compound_shifts _).anywhere (read.again other follows) pos', ← read.size]

/-- The text of the compounds behind the first, with the text behind the last. -/
inductive LinksSpelled (behind : List Char) : List (Combinator × Compound) → List Char → Prop
  | none : LinksSpelled behind [] []
  | link {sign : Combinator} {parts : Compound} {links : List (Combinator × Compound)} {between word text : List Char} :
      Between sign between → Spells word (text ++ behind) parts → LinksSpelled behind links text →
      LinksSpelled behind ((sign, parts) :: links) (between ++ (word ++ text))

/-- What joins two compounds, spelled out. -/
theorem between_of_joint {text : List Char} {sign : Combinator} {m : Nat}
    (h : joint (spaces text != 0) (text.drop (spaces text)) = (.combinator sign, m)) :
    ∃ between rest, text = between ++ rest ∧ Between sign between ∧
      between.length = spaces text + m + spaces (text.drop (spaces text + m)) := by
  obtain ⟨before, text, rfl, hbefore, size, stops⟩ := spaces_form text
  rw [size, List.drop_left] at h
  rw [size]
  simp only [← List.drop_drop, List.drop_left]
  -- the white space behind a sign
  have signed : ∀ {piece rest : List Char}, sign ≠ .descendant → sign.sign.toList = piece → text = piece ++ rest →
      m = piece.length → ∃ between rest, before ++ text = between ++ rest ∧ Between sign between ∧
        between.length = before.length + m + spaces (text.drop m) := by
    rintro piece rest other rfl rfl rfl
    obtain ⟨after, rest, rfl, hafter, size, -⟩ := spaces_form rest
    refine ⟨before ++ (sign.sign.toList ++ after), rest, by simp, .sign other hbefore hafter, ?_⟩
    rw [List.drop_left, size, List.length_append, List.length_append, Nat.add_assoc]
  unfold joint at h
  split at h
  · cases h
  · cases h
  · obtain ⟨rfl, rfl⟩ : Combinator.child = sign ∧ 1 = m := by simpa using h
    exact signed (by decide) rfl rfl rfl
  · obtain ⟨rfl, rfl⟩ : Combinator.nextSibling = sign ∧ 1 = m := by simpa using h
    exact signed (by decide) rfl rfl rfl
  · obtain ⟨rfl, rfl⟩ : Combinator.laterSibling = sign ∧ 1 = m := by simpa using h
    exact signed (by decide) rfl rfl rfl
  · obtain ⟨rfl, rfl⟩ : Combinator.column = sign ∧ 2 = m := by simpa using h
    exact signed (by decide) rfl rfl rfl
  · cases blank : before.length != 0 with
    | false => rw [blank] at h; cases h
    | true =>
        rw [blank] at h
        obtain ⟨rfl, rfl⟩ : Combinator.descendant = sign ∧ 0 = m := by simpa using h
        refine ⟨before, _, rfl, .descendant hbefore (by simpa using blank), ?_⟩
        rw [List.drop_zero, spaces_none stops, Nat.add_zero]

theorem endsSelector_of_joint {blank : Bool} {text : List Char} {m : Nat} (h : joint blank text = (.none, m)) :
    EndsSelector text := by
  intro c hc
  obtain ⟨rest, rfl⟩ := List.head?_eq_some_iff.mp hc
  unfold joint at h
  split at h
  · next same => cases same
  · next same => exact (List.cons.inj same).1
  all_goals first | cases h | (cases blank <;> cases h)

theorem LinksSpelled.stops {behind text : List Char} {links : List (Combinator × Compound)}
    (h : LinksSpelled behind links text) {other : List Char} (hb : StopsAt extendsCompound other) :
    StopsAt extendsCompound (text ++ other) := by
  cases h with
  | none => exact hb
  | link between _ _ =>
      rw [List.append_assoc]
      exact between.stops _

theorem links_spelled {pos : Nat} {text : List Char} {s : Scan (List (Combinator × Compound))}
    (h : links pos text = .ok s) :
    ∃ front blank rest, text = front ++ (blank ++ rest) ∧ IsBlank blank ∧ EndsSelector rest ∧
      s.size = front.length + blank.length ∧ LinksSpelled (blank ++ rest) s.value front := by
  induction length : text.length using Nat.strong_induction_on generalizing pos text s with | _ length ih => ?_
  subst length
  cases links_form h with
  | stop stop =>
      obtain ⟨blank, rest, rfl, hblank, size, -⟩ := spaces_form text
      rw [size, List.drop_left] at stop
      exact ⟨[], blank, rest, rfl, hblank, endsSelector_of_joint stop, by simp [size], .none⟩
  | @link sign m n parts more joined same _ _ read tail =>
      obtain ⟨between, behind, rfl, hbetween, size⟩ := between_of_joint joined
      rw [← size] at same
      subst same
      rw [List.drop_left] at read
      obtain ⟨word, rest, rfl, wordSize, spells⟩ := spells_of_compound read
      rw [← List.drop_drop, List.drop_left, wordSize, List.drop_left] at tail
      have shorter : rest.length < (between ++ (word ++ rest)).length := by
        obtain ⟨c, more, rfl, -⟩ := spells.begins
        simp
        omega
      obtain ⟨front, blank, rest, rfl, hblank, ends, size', spelled⟩ := ih _ shorter tail rfl
      have spells : Spells word (front ++ (blank ++ rest)) parts.value := spells
      refine ⟨between ++ (word ++ front), blank, rest, by simp, hblank, ends, ?_, .link hbetween spells spelled⟩
      rw [Scan.behind_size, wordSize, size', List.length_append, List.length_append]
      omega

theorem EndsSelector.stopsAtSpace {text : List Char} (h : EndsSelector text) : StopsAt isSpace text := by
  intro c hc
  rw [h c hc]
  decide

/-- A text that ends a selector may stand in the place of another. -/
theorem follows_ending {front behind blank rest other : List Char}
    (stops : StopsAt extendsCompound (behind ++ (blank ++ other))) (ends : EndsSelector other) :
    Follows extendsCompound front (behind ++ (blank ++ rest)) (behind ++ (blank ++ other)) :=
  ⟨stops, fun _ space => space.exchange fun space => space.exchange fun _ => ends.stopsAtSpace⟩

theorem LinksSpelled.read {blank rest front : List Char} {list : List (Combinator × Compound)}
    (h : LinksSpelled (blank ++ rest) list front) (hb : IsBlank blank) {other : List Char} (ends : EndsSelector other)
    (pos : Nat) : links pos (front ++ (blank ++ other)) = .ok ⟨list, front.length + blank.length⟩ := by
  induction h generalizing pos with
  | none => simpa using links_end hb ends pos
  | @link sign parts more between word text hbetween spells tail ih =>
      have stops := tail.stops (hb.stops ends.stops)
      have found := spells.again _ (follows_ending stops ends) (pos + between.length)
      rw [List.append_assoc, List.append_assoc, links_joined hbetween spells.begins found, ih]
      simp only [Except.map, Scan.behind, List.length_append, Nat.add_assoc]

/-- A complex selector spelled out: its first compound, the others, and white space behind them. -/
theorem complex_spelled {pos : Nat} {text : List Char} {s : Scan Complex} (h : complex pos text = .ok s) :
    ∃ word front blank rest, text = word ++ (front ++ (blank ++ rest)) ∧ IsBlank blank ∧ EndsSelector rest ∧
      s.size = word.length + (front.length + blank.length) ∧
      Spells word (front ++ (blank ++ rest)) s.value.first ∧ LinksSpelled (blank ++ rest) s.value.links front := by
  obtain ⟨first, more, found, tail, rfl⟩ := complex_form h
  obtain ⟨word, behind, rfl, size, spells⟩ := spells_of_compound found
  rw [size, List.drop_left] at tail
  obtain ⟨front, blank, rest, rfl, hblank, ends, size', spelled⟩ := links_spelled tail
  exact ⟨word, front, blank, rest, rfl, hblank, ends, by rw [Scan.behind_size, size, size'], spells, spelled⟩

/-- A complex selector ends at a comma as it does at the end of the text. -/
theorem complex_again {pos : Nat} {text : List Char} {s : Scan Complex} (h : complex pos text = .ok s) :
    ∃ front rest, text = front ++ rest ∧ s.size = front.length ∧ Begins extendsCompound front ∧ EndsSelector rest ∧
      ∀ other, EndsSelector other → complex pos (front ++ other) = .ok s := by
  obtain ⟨word, front, blank, rest, rfl, hblank, ends, size, spells, spelled⟩ := complex_spelled h
  refine ⟨word ++ (front ++ blank), rest, by simp, by simp [size], ?_, ends, fun other ends' => ?_⟩
  · obtain ⟨c, more, rfl, extending⟩ := spells.begins
    exact ⟨c, more ++ (front ++ blank), rfl, extending⟩
  · have found := spells.again _ (follows_ending (spelled.stops (hblank.stops ends'.stops)) ends') pos
    rw [List.append_assoc, List.append_assoc, complex, found]
    simp only [List.drop_left, spelled.read hblank ends']
    exact congrArg Except.ok (congrArg (Scan.mk s.value) size.symm)

/-- Behind an accepted list, a comma and a text are read as the rest of the list. -/
theorem selectors_comma {pos : Nat} {text : List Char} {list : List Complex} (h : selectors pos text = .ok list)
    (other : List Char) :
    selectors pos (text ++ ',' :: other) = (selectors (pos + (text.length + 1)) other).map (list ++ ·) := by
  induction length : text.length using Nat.strong_induction_on generalizing pos text list with | _ length ih => ?_
  subst length
  obtain ⟨blank, text, rfl, hblank, size, noSpace⟩ := spaces_form text
  -- the first selector of the list, in front of whatever ends it
  have first : ∀ {s : Scan Complex} {front : List Char}, Begins extendsCompound front → s.size = front.length →
      (∀ other, EndsSelector other → complex (pos + blank.length) (front ++ other) = .ok s) → ∀ other,
        selectors pos (blank ++ (front ++ ',' :: other)) =
          (selectors (pos + (blank.length + front.length + 1)) other).map (s.value :: ·) := by
    intro s front begins size again other
    have blanks : spaces (blank ++ (front ++ ',' :: other)) = blank.length := by
      obtain ⟨c, more, rfl, extending⟩ := begins
      exact spaces_append hblank (.cons (isSpace_of_extendsCompound extending))
    have comma : EndsSelector (',' :: other) := fun c hc => by simpa using hc.symm
    rw [selectors_eq, blanks, List.drop_left, again _ comma]
    change selectorsBehind _ pos s = _
    rw [selectorsBehind, blanks, size, ← List.drop_drop, List.drop_left, List.drop_left]
  cases selectors_form h with
  | last found done =>
      rw [size, List.drop_left] at found
      obtain ⟨front, rest, rfl, size', begins, -, again⟩ := complex_again found
      rw [size, size', ← List.drop_drop, List.drop_left, List.drop_left] at done
      subst done
      rw [List.append_nil, List.append_assoc, first begins size' again, List.length_append]
      rfl
  | @more s c rest list found goesOn tail =>
      rw [size, List.drop_left] at found
      obtain ⟨front, behind, rfl, size', begins, ends, again⟩ := complex_again found
      rw [size, size', ← List.drop_drop, List.drop_left, List.drop_left] at goesOn
      subst goesOn
      obtain rfl : c = ',' := ends c rfl
      rw [size, size'] at tail
      have shorter : rest.length < (blank ++ (front ++ ',' :: rest)).length := by
        simp
        omega
      have later := ih _ shorter tail rfl
      have far : pos + (blank.length + front.length + 1) + (rest.length + 1) =
          pos + ((blank ++ (front ++ ',' :: rest)).length + 1) := by
        simp only [List.length_append, List.length_cons]
        omega
      rw [List.append_assoc, List.append_assoc, List.cons_append, first begins size' again, later, far]
      cases selectors (pos + ((blank ++ (front ++ ',' :: rest)).length + 1)) other <;> rfl

/-- Two texts with a comma between them. If the first is accepted, what is joined has the selectors of both, or the fault
of the second as far behind its comma as it was behind the start. -/
theorem parse_comma {first second : String} {list : List Complex} (h : parse first = .ok list) :
    (∀ more, parse second = .ok more → parse (first ++ "," ++ second) = .ok (list ++ more)) ∧
      ∀ r, parse second = .error r →
        parse (first ++ "," ++ second) = .error ⟨r.fault, r.position + first.length + 1⟩ := by
  have joined : parse (first ++ "," ++ second) =
      ((parse second).mapError (.further (first.length + 1))).map (list ++ ·) := by
    have comma : (first ++ "," ++ second).toList = first.toList ++ ',' :: second.toList := by simp
    rw [parse, comma, selectors_comma h]
    exact congrArg _ (selectors_shifts second.toList 0 (first.length + 1))
  constructor
  · intro more found
    rw [joined, found]
    rfl
  · intro r rejected
    rw [joined, rejected]
    rfl

/-- A list that ends in an escape, in front of an accepted list and in front of a fault in an argument. -/
theorem parse_comma_escape :
    parse ("a, .b\\41" ++ "," ++ " c") = .ok [⟨[.element "a"], []⟩, ⟨[.className "bA"], []⟩, ⟨[.element "c"], []⟩] ∧
      parse ("a, .b\\41" ++ "," ++ "d:not( e f)") = .error ⟨.notSingle, 17⟩ := by
  have first : parse "a, .b\\41" = .ok [⟨[.element "a"], []⟩, ⟨[.className "bA"], []⟩] := by cbv
  have second : parse " c" = .ok [⟨[.element "c"], []⟩] := by cbv
  have rejected : parse "d:not( e f)" = .error ⟨.notSingle, 8⟩ := by cbv
  exact ⟨(parse_comma first).1 _ second, (parse_comma first).2 _ rejected⟩

end StyleAudit.Selector
