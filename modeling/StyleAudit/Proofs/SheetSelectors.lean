import StyleAudit.Proofs.Buckets
import StyleAudit.Proofs.InspectionCourse
/-!
Selectors of a style sheet: where they stand, and what its audit does with them. Each is filed once under the scope and
the line of its rule, and each is inspected once.
-/
namespace StyleAudit

open Css (Rule StyleRule Stylesheet)

/-! Where selectors stand. -/

mutual
/-- The style rules that a rule in a scope leads to through groups alone, in document order, each with its scope. -/
def placedRule (scope : String) : Rule → List (String × StyleRule)
  | .style r => [(scope, r)]
  | .group _ name prelude rules => placedRules (groupScope name prelude) rules
  | .keyframes .. | .charset .. | .imported .. | .descriptors .. | .statement .. => []

def placedRules (scope : String) : List Rule → List (String × StyleRule)
  | [] => []
  | r :: rest => placedRule scope r ++ placedRules scope rest
end

/-- The selectors of a style rule in a scope, each with the scope and the line of the rule. -/
def located (p : String × StyleRule) : List (String × Nat × String) := p.2.selectors.map (p.1, p.2.line, ·)

def placedSelectors (rules : List Rule) : List (String × Nat × String) :=
  (placedRules rootScope rules).flatMap located

/-- The selectors of the style rules with that scope and line, in document order. -/
def selectorsAt (rules : List Rule) (scope : String) (line : Nat) : List String :=
  ((placedRules rootScope rules).filter fun p => p.1 = scope ∧ p.2.line = line).flatMap (·.2.selectors)

/-- What is known after the inspection of one more selector. -/
def inspectNext (v : Vocabulary) (found : Findings) (selector : String × Nat × String) : Findings :=
  ((inspect v selector.2.1 selector.2.2).after found).findings

/-- Every selector of the rules is filed where it stands and is inspected, and nothing else is. -/
structure FilesSelectors (v : Vocabulary) (rules : List Rule) (a : SheetAudit) : Prop where
  filed : ∀ scope line texts, (∃ lines, (scope, lines) ∈ a.selectorsByLine ∧ (line, texts) ∈ lines) ↔
    texts = selectorsAt rules scope line ∧ texts ≠ []
  scopes : AreBuckets a.selectorsByLine
  lines : ∀ s ∈ a.selectorsByLine, AreBuckets s.2
  counted : a.selectorCount = (placedSelectors rules).length
  summed : a.selectorCount = ((a.selectorsByLine.map fun s => Findings.total s.2)).sum
  accepted : ∀ s ∈ placedSelectors rules, (inspect v s.2.1 s.2.2).stopped = none
  inspected : a.findings = (placedSelectors rules).foldl (inspectNext v) {}
  failed : a.findings.count .error ≤ a.selectorCount

/-! Notes on selectors. -/

theorem ofStyleRule_selectors (scope : String) (r : StyleRule) :
    (Note.ofStyleRule scope r).filterMap Note.selector? = located (scope, r) := by
  rw [Note.ofStyleRule, List.filterMap_map]
  exact congrFun List.filterMap_eq_map r.selectors

/-- The notes on an at-rule with descriptors are about families and uncategorized names, and a view of notes on anything
else shows none of them. -/
theorem ofDescriptors_view {β : Type} {view : Note → Option β} (families : ∀ line names, view (.families line names) = none)
    (uncategorized : ∀ line name, view (.uncategorized line name) = none) (line : Nat) (name : String)
    (ds : List Css.Declaration) : (Note.ofDescriptors line name ds).filterMap view = [] := by
  rw [Note.ofDescriptors]
  split
  · rw [List.filterMap_filterMap, List.filterMap_eq_nil_iff]
    intro d _
    rw [Note.ofFontDeclaration]
    split
    · exact families line d.items
    · rfl
  · split
    · rfl
    · exact List.filterMap_cons_none (uncategorized line name)

mutual
theorem ofGroupedRule_selectors (line : Nat) (scope : String) (r : Rule) :
    (Note.ofGroupedRule line scope r).filterMap Note.selector? =
      (placedRule scope r).flatMap located := by
  cases r with
  | style r =>
      rw [Note.ofGroupedRule, placedRule, ofStyleRule_selectors, List.flatMap_singleton]
  | group line name prelude rules =>
      rw [Note.ofGroupedRule, placedRule]
      exact ofGroupedRules_selectors line (groupScope name prelude) rules
  | descriptors line name _ ds =>
      rw [Note.ofGroupedRule, placedRule, ofDescriptors_view (fun _ _ => rfl) (fun _ _ => rfl)]
      rfl
  | keyframes | charset | imported | statement =>
      rw [Note.ofGroupedRule, placedRule]
      rfl

theorem ofGroupedRules_selectors (line : Nat) (scope : String) (rules : List Rule) :
    (Note.ofGroupedRules line scope rules).filterMap Note.selector? =
      (placedRules scope rules).flatMap located := by
  cases rules with
  | nil =>
      rw [Note.ofGroupedRules, placedRules]
      rfl
  | cons r rest =>
      rw [Note.ofGroupedRules, placedRules, List.filterMap_append, List.flatMap_append,
        ofGroupedRule_selectors line scope r, ofGroupedRules_selectors line scope rest]
end

/-- Selectors of a rule at the top are noted like those of a rule in a group with the scope of the top. -/
theorem ofRule_selectors (r : Rule) :
    (Note.ofRule r).filterMap Note.selector? = (Note.ofGroupedRule 0 rootScope r).filterMap Note.selector? := by
  cases r <;> rw [Note.ofRule, Note.ofGroupedRule] <;> rfl

theorem ofRules_selectors (rules : List Rule) :
    (Note.ofRules rules).filterMap Note.selector? = placedSelectors rules := by
  have grouped : (Note.ofRules rules).filterMap Note.selector? =
      (Note.ofGroupedRules 0 rootScope rules).filterMap Note.selector? := by
    induction rules with
    | nil =>
        rw [Note.ofGroupedRules]
        rfl
    | cons r rest ih =>
        rw [Note.ofRules, List.flatMap_cons, List.filterMap_append, ofRule_selectors, Note.ofGroupedRules,
          List.filterMap_append, ← ih]
        rfl
  rw [grouped]
  exact ofGroupedRules_selectors 0 rootScope rules

/-! Filing. -/

theorem entriesOf_located (p : String × StyleRule) (scope : String) (line : Nat) :
    entriesOf line (entriesOf scope (located p)) = if p.1 = scope ∧ p.2.line = line then p.2.selectors else [] := by
  have keyed : located p = (p.2.selectors.map (p.2.line, ·)).map (p.1, ·) := by
    rw [located, List.map_map]
    rfl
  rw [keyed, entriesOf_map]
  by_cases here : p.1 = scope
  · rw [if_pos here, entriesOf_map]
    simp only [here, true_and]
  · rw [if_neg here, if_neg (here ·.1)]
    rfl

theorem entriesOf_placed (rules : List Rule) (scope : String) (line : Nat) :
    entriesOf line (entriesOf scope (placedSelectors rules)) = selectorsAt rules scope line := by
  rw [placedSelectors, selectorsAt]
  induction placedRules rootScope rules with
  | nil => rfl
  | cons p rest ih =>
      rw [List.flatMap_cons, entriesOf_append, entriesOf_append, entriesOf_located, ih, List.filter_cons]
      by_cases here : p.1 = scope ∧ p.2.line = line
      · rw [if_pos here, if_pos (decide_eq_true here), List.flatMap_cons]
      · rw [if_neg here, if_neg (by simpa using here), List.nil_append]

theorem mem_selectorsByLine {a : SheetAudit} {scope : String} {line : Nat} {texts : List String} :
    (∃ lines, (scope, lines) ∈ a.selectorsByLine ∧ (line, texts) ∈ lines) ↔
      texts = entriesOf line (entriesOf scope a.selectors) ∧ texts ≠ [] := by
  rw [SheetAudit.selectorsByLine]
  constructor
  · rintro ⟨lines, member, inside⟩
    obtain ⟨⟨scope', entries⟩, member', same⟩ := List.mem_map.mp member
    obtain ⟨rfl, rfl⟩ := Prod.mk.inj same
    obtain ⟨rfl, -⟩ := mem_grouped.mp member'
    exact mem_grouped.mp inside
  · rintro ⟨rfl, some⟩
    refine ⟨grouped (entriesOf scope a.selectors), List.mem_map.mpr ⟨(scope, _), mem_grouped.mpr ⟨rfl, ?_⟩, rfl⟩,
      mem_grouped.mpr ⟨rfl, some⟩⟩
    intro none
    rw [none] at some
    exact some rfl

theorem areBuckets_selectorsByLine (a : SheetAudit) : AreBuckets a.selectorsByLine := by
  have buckets := areBuckets_grouped a.selectors
  refine ⟨List.pairwise_map.mpr buckets.ordered, ?_⟩
  intro s member
  obtain ⟨b, member', rfl⟩ := List.mem_map.mp member
  exact grouped_ne_nil (buckets.inhabited b member')

theorem areBuckets_lines {a : SheetAudit} : ∀ s ∈ a.selectorsByLine, AreBuckets s.2 := by
  intro s member
  obtain ⟨b, -, rfl⟩ := List.mem_map.mp member
  exact areBuckets_grouped b.2

theorem selectorCount_eq_sum (a : SheetAudit) :
    a.selectorCount = ((a.selectorsByLine.map fun s => Findings.total s.2)).sum := by
  have lengths : (a.selectorsByLine.map fun s => Findings.total s.2) = (grouped a.selectors).map (·.2.length) := by
    rw [SheetAudit.selectorsByLine, List.map_map]
    refine List.map_congr_left ?_
    rintro ⟨scope, entries⟩ -
    exact total_grouped entries
  rw [lengths, SheetAudit.selectorCount, ← total_grouped]
  rfl

/-! Inspection. -/

theorem findings_selector {v : Vocabulary} {path text : String} (scope : String) {line : Nat} {rest : List Note}
    {findings : Findings} (h : Note.findings v path (.selector scope line text :: rest) = .ok findings) :
    ∃ more, Note.findings v path rest = .ok more ∧ (inspect v line text).stopped = none ∧
      findings = (inspect v line text).findings ++ more := by
  rw [Note.findings] at h
  generalize inspect v line text = first at h ⊢
  obtain ⟨found, stopped⟩ := first
  cases stopped with
  | some construct => cases h
  | none =>
      obtain ⟨more, behind, rfl⟩ := Selector.map_eq_ok h
      exact ⟨more, behind, rfl, rfl⟩

/-- The selectors among notes are inspected one after the other. -/
theorem findings_inspected {v : Vocabulary} {path : String} {notes : List Note} {findings : Findings}
    (h : Note.findings v path notes = .ok findings) :
    (∀ s ∈ notes.filterMap Note.selector?, (inspect v s.2.1 s.2.2).stopped = none) ∧
      ∀ found, (notes.filterMap Note.selector?).foldl (inspectNext v) found = found ++ findings := by
  induction notes generalizing findings with
  | nil =>
      obtain rfl := Except.ok.inj h
      exact ⟨nofun, fun found => (Findings.append_empty found).symm⟩
  | cons note rest ih =>
      cases note with
      | selector scope line text =>
          rw [Note.findings] at h
          obtain ⟨more, behind, stopped, rfl⟩ := findings_selector scope h
          obtain ⟨accepted, same⟩ := ih behind
          have first : Note.selector? (.selector scope line text) = some (scope, line, text) := rfl
          rw [List.filterMap_cons_some first]
          refine ⟨List.forall_mem_cons.mpr ⟨stopped, accepted⟩, ?_⟩
          intro found
          rw [List.foldl_cons, same]
          exact Findings.append_assoc found _ more
      | misplaced line construct => cases h
      | imported | families | uncategorized => exact ih h

theorem inspect_failures (v : Vocabulary) (line : Nat) (text : String) :
    (inspect v line text).findings.failures.length ≤ 1 := by
  obtain ⟨passes, ending, -, same⟩ :=
    exists_course v line text repairLimit (Text.trim_trim text.toList)
  have failures : (inspect v line text).findings.failures.length =
      (ending.inspection line {} (recordedRepairs line passes (Text.trim text.toList))).findings.failures.length :=
    congrArg (fun i => i.findings.failures.length) (same {})
  rw [failures]
  cases ending <;> simp [Ending.inspection]

theorem inspected_failures (v : Vocabulary) (selectors : List (String × Nat × String)) (found : Findings) :
    (selectors.foldl (inspectNext v) found).failures.length ≤ found.failures.length + selectors.length := by
  induction selectors generalizing found with
  | nil => exact Nat.le_refl _
  | cons s rest ih =>
      have once := inspect_failures v s.2.1 s.2.2
      have first : (inspectNext v found s).failures.length ≤ found.failures.length + 1 := by
        simpa [inspectNext, Inspection.after] using once
      rw [List.foldl_cons, List.length_cons]
      have behind := ih (inspectNext v found s)
      omega

theorem ofBytes_form {v : Vocabulary} {path : String} {bytes : List UInt8} {a : SheetAudit}
    (h : SheetAudit.ofBytes v path bytes = .ok a) :
    a.notes = Note.ofRules (Stylesheet.ofText (String.ofList (Text.ofUtf8 bytes))).rules ∧
      Note.findings v path a.notes = .ok a.findings := by
  obtain ⟨findings, found, rfl⟩ := Selector.map_eq_ok h
  exact ⟨rfl, found⟩

/-- An audit of bytes loses no selector, files none twice and none where it does not belong, and inspects each once. -/
theorem ofBytes_selectors (v : Vocabulary) (path : String) (bytes : List UInt8) (a : SheetAudit)
    (h : SheetAudit.ofBytes v path bytes = .ok a) :
    FilesSelectors v (Stylesheet.ofText (String.ofList (Text.ofUtf8 bytes))).rules a := by
  obtain ⟨notes, found⟩ := ofBytes_form h
  generalize (Stylesheet.ofText (String.ofList (Text.ofUtf8 bytes))).rules = rules at notes ⊢
  have selectors : a.selectors = placedSelectors rules := by
    rw [SheetAudit.selectors, notes, ofRules_selectors]
  obtain ⟨accepted, inspected⟩ := findings_inspected found
  rw [← SheetAudit.selectors, selectors] at accepted inspected
  have all : a.findings = (placedSelectors rules).foldl (inspectNext v) {} := (inspected {}).symm
  have counted : a.selectorCount = (placedSelectors rules).length := by
    rw [SheetAudit.selectorCount, selectors]
  refine ⟨?_, areBuckets_selectorsByLine a, areBuckets_lines, counted, selectorCount_eq_sum a, accepted, all, ?_⟩
  · intro scope line texts
    rw [mem_selectorsByLine, selectors, entriesOf_placed]
  · have failed := inspected_failures v (placedSelectors rules) {}
    rw [← all, List.length_nil, Nat.zero_add] at failed
    rw [counted]
    exact failed

/-- Groups in a group have their own scope, and rules behind them have the scope of the group around them again. -/
theorem ofBytes_selectors_nested : ∃ a,
    SheetAudit.ofBytes ⟨[], [], []⟩ "x.css" (Text.toUtf8 "a,b{}@media c{a{}@supports{b{}}a{}}") = .ok a ∧
      FilesSelectors ⟨[], [], []⟩
        (Stylesheet.ofText (String.ofList (Text.ofUtf8 (Text.toUtf8 "a,b{}@media c{a{}@supports{b{}}a{}}")))).rules a ∧
      selectorsAt
        (Stylesheet.ofText (String.ofList (Text.ofUtf8 (Text.toUtf8 "a,b{}@media c{a{}@supports{b{}}a{}}")))).rules
        "c" 1 = ["a", "a"] := by
  have notes : Note.ofRules
      (Stylesheet.ofText (String.ofList (Text.ofUtf8 (Text.toUtf8 "a,b{}@media c{a{}@supports{b{}}a{}}")))).rules =
        [.selector "root" 1 "a", .selector "root" 1 "b", .selector "c" 1 "a", .selector "@supports" 1 "b",
          .selector "c" 1 "a"] := by
    decide +kernel
  have read : (Note.findings ⟨[], [], []⟩ "x.css" [.selector "root" 1 "a", .selector "root" 1 "b",
      .selector "c" 1 "a", .selector "@supports" 1 "b", .selector "c" 1 "a"]).isOk = true := by
    cbv
  obtain ⟨a, audited⟩ : ∃ a, SheetAudit.ofBytes ⟨[], [], []⟩ "x.css"
      (Text.toUtf8 "a,b{}@media c{a{}@supports{b{}}a{}}") = .ok a := by
    rw [SheetAudit.ofBytes, notes]
    cases found : Note.findings ⟨[], [], []⟩ "x.css" [.selector "root" 1 "a", .selector "root" 1 "b",
      .selector "c" 1 "a", .selector "@supports" 1 "b", .selector "c" 1 "a"] with
    | error e => rw [found] at read; cases read
    | ok findings => exact ⟨_, rfl⟩
  refine ⟨a, audited, ofBytes_selectors _ _ _ a audited, ?_⟩
  decide +kernel

end StyleAudit
