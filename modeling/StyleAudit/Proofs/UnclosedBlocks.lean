import StyleAudit.Proofs.Outlines
/-!
Blocks that reach to the end of a source because nothing closes them. For each block of an at-rule among them there is
one report, on the last line; the block of a style rule and the brackets in a prelude or a value are mended in silence.
-/
namespace StyleAudit.Css

namespace Node

mutual
/-- The openings of the blocks that have no closing token, the outermost first. -/
def unclosed : Node → List Token
  | .leaf _ => []
  | .block _ opener contents closer => (if closer.isNone then [opener] else []) ++ listUnclosed contents

def listUnclosed : List Node → List Token
  | [] => []
  | n :: rest => n.unclosed ++ listUnclosed rest
end

theorem listUnclosed_append (ms ns : List Node) : listUnclosed (ms ++ ns) = listUnclosed ms ++ listUnclosed ns := by
  induction ms with
  | nil => rfl
  | cons m ms ih => rw [List.cons_append, listUnclosed, listUnclosed, ih, List.append_assoc]

mutual
/-- Only at the end of a list may there be a block without a closing token. -/
theorem unclosed_inside : ∀ (n : Node) {around : Option Bracket}, n.IsNested around false → n.unclosed = []
  | .leaf _, _, _ => rfl
  | .block _ _ _ none, _, h => absurd (h.2.2.2 rfl) Bool.false_ne_true
  | .block _ _ contents (some _), _, h => listUnclosed_inside contents h.2.1

theorem listUnclosed_inside : ∀ (ns : List Node) {around : Option Bracket}, AreNested around false ns →
    listUnclosed ns = []
  | [], _, _ => rfl
  | n :: ns, _, h => by rw [listUnclosed, unclosed_inside n h.1, listUnclosed_inside ns h.2, List.nil_append]
end

end Node

/-- What a block is opened for. -/
inductive Role where
  /-- For the declarations of a style rule. -/
  | style
  /-- For what is in the named at-rule. -/
  | atRule (name : String)
  /-- For a part of a prelude or of a value, or of what is skipped. -/
  | part
  deriving DecidableEq

/-- What is reported of a block that nothing closes. -/
def Role.defect? : Role → Option Defect
  | .atRule name =>
    some (match Level.ofName name with
      | .rules _ => .unclosedGroup
      | .declarations => .unclosedBlock name)
  | .style | .part => none

/-- Whether something is reported because a block is not closed. -/
def Defect.isUnclosed : Defect → Bool
  | .unclosedGroup | .unclosedBlock _ => true
  | _ => false

namespace Clause

/-- The blocks without a closing token that are parts of something else. -/
def unclosedParts (ns : List Node) : List (Role × Token) := (Node.listUnclosed ns).map (Role.part, ·)

mutual
/-- The blocks without a closing token and what they were opened for, the outermost first. -/
def unclosed : Clause → List (Role × Token)
  | .style head opener body closer =>
    unclosedParts head ++ ((if closer.isNone then [(.style, opener)] else []) ++ listUnclosed body)
  | .block _ word prelude opener body closer =>
    unclosedParts prelude ++ ((if closer.isNone then [(.atRule word.toLower, opener)] else []) ++ listUnclosed body)
  | c => unclosedParts c.nodes

def listUnclosed : List Clause → List (Role × Token)
  | [] => []
  | c :: cs => c.unclosed ++ listUnclosed cs
end

theorem openings_parts (ns : List Node) : (unclosedParts ns).map Prod.snd = Node.listUnclosed ns := by
  rw [unclosedParts, List.map_map]
  exact List.map_id _

mutual
/-- No block without a closing token is left out. -/
theorem openings_unclosed : ∀ c : Clause, c.unclosed.map Prod.snd = Node.listUnclosed c.nodes
  | .style head opener body closer => by
      rw [unclosed, nodes, Node.listUnclosed_append, List.map_append, List.map_append, openings_parts,
        openings_listUnclosed body]
      cases closer <;> simp [Node.listUnclosed, Node.unclosed]
  | .block keyword word prelude opener body closer => by
      rw [unclosed, nodes, Node.listUnclosed, Node.listUnclosed_append, List.map_append, List.map_append, openings_parts,
        openings_listUnclosed body]
      cases closer <;> simp [Node.listUnclosed, Node.unclosed]
  | .idle _ | .stray _ | .bare .. | .statement .. | .declaration .. | .noColon .. | .unexpected .. =>
      openings_parts _

theorem openings_listUnclosed : ∀ cs : List Clause, (listUnclosed cs).map Prod.snd = Node.listUnclosed (listNodes cs)
  | [] => rfl
  | c :: cs => by
      rw [listUnclosed, listNodes, Node.listUnclosed_append, List.map_append, openings_unclosed c,
        openings_listUnclosed cs]
end

section
variable {around : Option Bracket} {last : Bool} {rest : List Node}

/-- In front of something else every block is closed. -/
theorem unclosed_inFront {c : Clause} (h : Node.AreNested around last (c.nodes ++ rest)) (more : rest ≠ []) :
    c.unclosed = [] := by
  have within := (Node.areNested_append.mp h).1
  rw [List.isEmpty_eq_false_iff.mpr more, Bool.and_false] at within
  rw [← List.map_eq_nil_iff (f := Prod.snd), openings_unclosed, Node.listUnclosed_inside _ within]

/-- In a block that is closed every block is closed. -/
theorem listUnclosed_closed {body : List Clause} (h : Node.AreNested around false (listNodes body)) :
    listUnclosed body = [] := by
  rw [← List.map_eq_nil_iff (f := Prod.snd), openings_listUnclosed, Node.listUnclosed_inside _ h]

end

/-! What is reported of the blocks that nothing closes, the innermost first. -/

def reports (line : Nat) (blocks : List (Role × Token)) : List Issue :=
  blocks.reverse.filterMap fun b => b.1.defect?.map (⟨·, line⟩)

theorem reports_append (line : Nat) (blocks more : List (Role × Token)) :
    reports line (blocks ++ more) = reports line more ++ reports line blocks := by
  simp [reports]

theorem reports_parts (line : Nat) (ns : List Node) : reports line (unclosedParts ns) = [] := by
  simp [reports, unclosedParts, Role.defect?]

theorem selectors_reports (line : Nat) (nodes : List Node) :
    (selectors line nodes).issues.filter (·.defect.isUnclosed) = [] := by
  simp only [selectors]
  split <;> rfl

/-- What is reported of one block is what its role says. -/
theorem reports_block (name : String) (opener : Token) (stop : Ending) (closer : Option Token) :
    (blockEnd name (stop.ofCloser closer)).filter (·.defect.isUnclosed) =
      reports stop.line (if closer.isNone then [(Role.atRule name, opener)] else []) := by
  cases closer with
  | some t => rfl
  | none =>
      simp only [blockEnd, Ending.ofCloser, reports, Option.isNone_none, if_true, List.reverse_singleton,
        List.filterMap_cons, Role.defect?]
      cases Level.ofName name <;> rfl

mutual
theorem reports_unclosed {rest : List Node} {next : Nat} : ∀ (c : Clause) {around : Option Bracket} {last : Bool}
    {stop : Ending}, Node.AreNested around last (c.nodes ++ rest) →
      (c.issues stop next).filter (·.defect.isUnclosed) = reports stop.line c.unclosed
  | .style head opener body closer, _, _, stop, nested => by
      rw [nodes, List.append_assoc, Node.areNested_append] at nested
      have inside : Node.AreNested (some .curly) closer.isNone (listNodes body) := nested.2.1.2.1
      rw [issues, List.filter_append, selectors_reports, reports_listUnclosed body inside, unclosed, reports_append,
        reports_parts, reports_append]
      cases closer with
      | none => simp [reports, Role.defect?, Ending.ofCloser]
      | some t => simp [listUnclosed_closed inside, reports]
  | .block keyword word prelude opener body closer, _, _, stop, nested => by
      rw [nodes, List.cons_append, List.append_assoc, ← List.cons_append, Node.areNested_append] at nested
      have inside : Node.AreNested (some .curly) closer.isNone (listNodes body) := nested.2.1.2.1
      rw [issues, List.filter_append, reports_block _ opener, reports_listUnclosed body inside, unclosed, reports_append,
        reports_parts, reports_append, List.append_nil]
      cases closer with
      | none => rfl
      | some t => rw [listUnclosed_closed inside]; rfl
  | .idle _, _, _, stop, _ | .statement .., _, _, stop, _ | .declaration .., _, _, stop, _ =>
      (reports_parts stop.line _).symm
  | .stray _, _, _, stop, _ | .bare .., _, _, stop, _ | .noColon .., _, _, stop, _ | .unexpected .., _, _, stop, _ =>
      (reports_parts stop.line _).symm

theorem reports_listUnclosed : ∀ (cs : List Clause) {around : Option Bracket} {last : Bool} {stop : Ending},
    Node.AreNested around last (listNodes cs) →
      (listIssues stop cs).filter (·.defect.isUnclosed) = reports stop.line (listUnclosed cs)
  | [], _, _, _, _ => rfl
  | c :: cs, _, _, stop, nested => by
      rw [listNodes] at nested
      have later := (Node.areNested_append.mp nested).2
      rw [listIssues, List.filter_append, reports_unclosed c nested, reports_listUnclosed cs later, listUnclosed,
        reports_append]
      cases cs with
      | nil => simp [listUnclosed, reports]
      | cons d ds =>
          have more : listNodes (d :: ds) ≠ [] := by simp [listNodes, d.nodes_ne_nil]
          simp [unclosed_inFront nested more, reports]
end

/-! The blocks that nothing closes and nothing is reported of. -/

/-- The unclosed blocks of a list are those of its last member. -/
theorem listUnclosed_last {around : Option Bracket} {last : Bool} {level : Level} {cs : List Clause}
    (fit : AllFit level cs) (nested : Node.AreNested around last (listNodes cs)) :
    listUnclosed cs = [] ∨
      ∃ c : Clause, c.Fits level [] ∧ Node.AreNested around last c.nodes ∧ listUnclosed cs = c.unclosed := by
  induction cs with
  | nil => exact .inl rfl
  | cons c cs ih =>
      rw [listNodes] at nested
      cases cs with
      | nil =>
          rw [listNodes, List.append_nil] at nested
          exact .inr ⟨c, fit.1, nested, by simp [listUnclosed]⟩
      | cons d ds =>
          have more : listNodes (d :: ds) ≠ [] := by simp [listNodes, d.nodes_ne_nil]
          rw [listUnclosed, unclosed_inFront nested more, List.nil_append]
          exact ih fit.2 (Node.areNested_append.mp nested).2

/-- Blocks of which nothing is reported. -/
def AreSilent (blocks : List (Role × Token)) : Prop := ∀ b ∈ blocks, b.1.defect? = none

theorem areSilent_of_reports {line : Nat} {blocks : List (Role × Token)} (h : reports line blocks = []) :
    AreSilent blocks := by
  intro b hb
  have none := List.filterMap_eq_nil_iff.mp h b (List.mem_reverse.mpr hb)
  exact Option.map_eq_none_iff.mp none

section
variable {around : Option Bracket} {last : Bool}

theorem silent_atRule {keyword opener : Token} {word : String} {prelude : List Node} {body : List Clause}
    {closer : Option Token}
    (nested : Node.AreNested around last (Clause.block keyword word prelude opener body closer).nodes)
    (silent : AreSilent (Clause.block keyword word prelude opener body closer).unclosed) :
    (Clause.block keyword word prelude opener body closer).unclosed = unclosedParts prelude := by
  rw [unclosed] at silent ⊢
  cases closer with
  | none => exact absurd (silent (.atRule word.toLower, opener) (by simp)) (by simp [Role.defect?])
  | some t =>
      rw [nodes, ← List.cons_append, Node.areNested_append] at nested
      have inside : Node.AreNested (some .curly) false (listNodes body) := nested.2.1.2.1
      simp [listUnclosed_closed inside]

theorem silent_declarations {cs : List Clause} (fit : AllFit .declarations cs)
    (nested : Node.AreNested around last (listNodes cs)) (silent : AreSilent (listUnclosed cs)) :
    ∃ ns, listUnclosed cs = unclosedParts ns := by
  rcases listUnclosed_last fit nested with none | ⟨c, fits, inside, same⟩
  · exact ⟨[], none⟩
  · rw [same] at silent ⊢
    cases c with
    | style head opener body closer =>
        obtain ⟨⟨_, other, -⟩, -⟩ := fits
        cases other
    | block keyword word prelude opener body closer => exact ⟨prelude, silent_atRule inside silent⟩
    | _ => exact ⟨_, rfl⟩

/-- The block of a style rule at the top and the parts of preludes and values are all that is mended in silence. -/
theorem silent_rules {nested : Bool} {cs : List Clause} (fit : AllFit (.rules nested) cs)
    (inside : Node.AreNested around last (listNodes cs)) (silent : AreSilent (listUnclosed cs)) :
    ∃ (rule : Option Token) (ns : List Node), listUnclosed cs = rule.toList.map (Role.style, ·) ++ unclosedParts ns := by
  rcases listUnclosed_last fit inside with none | ⟨c, fits, within, same⟩
  · exact ⟨Option.none, [], none⟩
  · rw [same] at silent ⊢
    have parts : (∃ ns, c.unclosed = unclosedParts ns) →
        ∃ (rule : Option Token) (ns : List Node), c.unclosed = rule.toList.map (Role.style, ·) ++ unclosedParts ns :=
      fun ⟨ns, same⟩ => ⟨Option.none, ns, same⟩
    cases c with
    | style head opener body closer =>
        obtain ⟨before, block⟩ := Node.areNested_append.mp within
        have bodyInside : Node.AreNested (some .curly) closer.isNone (listNodes body) := block.1.2.1
        rw [List.isEmpty_cons, Bool.and_false] at before
        have flat : unclosedParts head = [] := by rw [unclosedParts, Node.listUnclosed_inside head before, List.map_nil]
        rw [unclosed, flat, List.nil_append] at silent ⊢
        cases closer with
        | some t => exact ⟨none, [], by simp [listUnclosed_closed bodyInside, unclosedParts, Node.listUnclosed]⟩
        | none =>
            obtain ⟨ns, inner⟩ := silent_declarations fits.2.2 bodyInside fun b hb =>
              silent b (List.mem_append_right _ hb)
            exact ⟨some opener, ns, by rw [inner]; rfl⟩
    | block keyword word prelude opener body closer => exact parts ⟨prelude, silent_atRule within silent⟩
    | _ => exact parts ⟨_, rfl⟩

end

end Clause

namespace Node

mutual
/-- Whether each block has its own closing token. -/
def IsClosedThroughout : Node → Prop
  | .leaf _ => True
  | .block opening _ contents closer => (∃ t, closer = some t ∧ t.kind = .closing opening.closes) ∧ AreClosed contents

def AreClosed : List Node → Prop
  | [] => True
  | n :: rest => n.IsClosedThroughout ∧ AreClosed rest
end

mutual
theorem unclosed_eq_nil_iff : ∀ (n : Node) {around : Option Bracket} {last : Bool}, n.IsNested around last →
    (n.unclosed = [] ↔ n.IsClosedThroughout)
  | .leaf _, _, _, _ => by simp [unclosed, IsClosedThroughout]
  | .block opening opener contents closer, _, _, h => by
      have inside := listUnclosed_eq_nil_iff contents h.2.1
      cases closer with
      | none => simp [unclosed, IsClosedThroughout]
      | some t => simp [unclosed, IsClosedThroughout, inside, h.2.2.1 t rfl]

theorem listUnclosed_eq_nil_iff : ∀ (ns : List Node) {around : Option Bracket} {last : Bool},
    AreNested around last ns → (listUnclosed ns = [] ↔ AreClosed ns)
  | [], _, _, _ => by simp [listUnclosed, AreClosed]
  | n :: ns, _, _, h => by
      rw [listUnclosed, AreClosed, List.append_eq_nil_iff, unclosed_eq_nil_iff n h.1, listUnclosed_eq_nil_iff ns h.2]
end

end Node

/-- What is reported of blocks that reach to the end of a source. Each block of the source has its own closing token or
is among the unclosed ones. For each block of an at-rule among these there is one report on the last line, the innermost
first, and there is no other report of the kind. If nothing at all is reported, only the block of one style rule and the
brackets in a prelude or a value may be unclosed. -/
theorem ofText_unclosed (css : String) :
    (∃ cs, IsOutline css cs) ∧ ∀ cs, IsOutline css cs →
      (Clause.listUnclosed cs).map Prod.snd = Node.listUnclosed (sourceNodes css) ∧
      (Clause.listUnclosed cs = [] ↔ Node.AreClosed (sourceNodes css)) ∧
      (Stylesheet.ofText css).issues.filter (·.defect.isUnclosed) =
        Clause.reports (1 + (normalize css.toList).count '\n') (Clause.listUnclosed cs) ∧
      ((Stylesheet.ofText css).issues = [] → ∃ (rule : Option Token) (parts : List Token),
        Clause.listUnclosed cs = rule.toList.map (Role.style, ·) ++ parts.map (Role.part, ·)) := by
  refine ⟨exists_outline css, fun cs outline => ?_⟩
  have nested : Node.AreNested none true (Clause.listNodes cs) := outline.nodes ▸ areNested_sourceNodes css
  have openings := Clause.openings_listUnclosed cs
  rw [outline.nodes] at openings
  have found : (Stylesheet.ofText css).issues.filter (·.defect.isUnclosed) =
      Clause.reports (1 + (normalize css.toList).count '\n') (Clause.listUnclosed cs) := by
    rw [outline.ofText, ← line_sourceEnd]
    exact Clause.reports_listUnclosed cs nested
  refine ⟨openings, ?_, found, fun none => ?_⟩
  · rw [← Node.listUnclosed_eq_nil_iff _ (areNested_sourceNodes css), ← openings, List.map_eq_nil_iff]
  · rw [none, List.filter_nil] at found
    obtain ⟨rule, ns, same⟩ := Clause.silent_rules outline.fits nested (Clause.areSilent_of_reports found.symm)
    exact ⟨rule, Node.listUnclosed ns, same⟩

theorem ofText_unclosed_rule :
    let css := "a\x7bb:(c"
    let value := Node.block (.bracket .paren) ⟨.opening .paren, ⟨4, 1⟩, ['(']⟩ [.leaf ⟨.ident "c", ⟨5, 1⟩, ['c']⟩] none
    let cs := [Clause.style [.leaf ⟨.ident "a", ⟨0, 1⟩, ['a']⟩] ⟨.opening .curly, ⟨1, 1⟩, ['\x7b']⟩
      [.declaration ⟨.ident "b", ⟨2, 1⟩, ['b']⟩ "b" [] ⟨.colon, ⟨3, 1⟩, [':']⟩ [] [value]] none]
    IsOutline css cs ∧ (Stylesheet.ofText css).issues = [] ∧
      Node.listUnclosed (sourceNodes css) =
        [⟨.opening .curly, ⟨1, 1⟩, ['\x7b']⟩, ⟨.opening .paren, ⟨4, 1⟩, ['(']⟩] ∧
      ∃ (rule : Option Token) (parts : List Token),
        Clause.listUnclosed cs = rule.toList.map (Role.style, ·) ++ parts.map (Role.part, ·) := by
  intro css value cs
  have tokens : tokenize css = Node.listTokens (Clause.listNodes cs) ++ [⟨.endOfSource, ⟨6, 1⟩, []⟩] := by
    decide +kernel
  have fits : Clause.AllFit (.rules false) cs := by
    simp [cs, value, Clause.AllFit, Clause.Fits, Clause.listNodes, Level.idle, Level.BeginsStyle, Clause.Blank,
      Clause.UpToSemicolon, Node.kind?, Node.isCurly]
  have outline : IsOutline css cs := by
    refine ⟨fits, ?_⟩
    rw [sourceNodes, tokens]
    rfl
  have silent : (Stylesheet.ofText css).issues = [] := by decide +kernel
  obtain ⟨openings, -, -, left⟩ := (ofText_unclosed css).2 cs outline
  exact ⟨outline, silent, openings.symm, left silent⟩

/-- A style rule that is never closed is read without any report. -/
theorem ofText_silent :
    let css := "a\x7bb:c"
    (Stylesheet.ofText css).issues = [] ∧ ¬ Node.AreClosed (sourceNodes css) := by
  intro css
  have left : Node.listUnclosed (sourceNodes css) ≠ [] := by decide +kernel
  exact ⟨by decide +kernel, mt (Node.listUnclosed_eq_nil_iff _ (areNested_sourceNodes css)).mpr left⟩

end StyleAudit.Css
