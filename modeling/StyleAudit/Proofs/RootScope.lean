import StyleAudit.Proofs.SheetSelectors
/-!
The section of the root. A selector is filed under the name of the root if its rule stands in no group, and also if the
innermost group around its rule has that name. So the section holds just the selectors outside of groups where no group
with selectors is called like the root.
-/
namespace StyleAudit

open Css (Rule StyleRule Stylesheet)

/-- A selector of a style sheet where it stands: the scopes of the groups around its rule, the innermost first, and the
line of the rule. -/
structure Occurrence where
  groups : List String
  line : Nat
  text : String
  deriving DecidableEq, Repr

namespace Occurrence

/-- The scope of the innermost group around the rule, or that of the root. -/
def scope (o : Occurrence) : String := o.groups.headD rootScope

/-- What is filed for an occurrence. -/
def filed (o : Occurrence) : String × Nat × String := (o.scope, o.line, o.text)

/-- Whether the rule stands in no group. -/
def isOutside (o : Occurrence) : Bool := o.groups.isEmpty

/-- Whether the innermost group around the rule has the scope of the root. -/
def isNamesake (o : Occurrence) : Bool := o.groups.head? == some rootScope

def ofStyleRule (groups : List String) (r : StyleRule) : List Occurrence := r.selectors.map (⟨groups, r.line, ·⟩)

mutual
/-- The selectors that a rule in groups leads to through groups alone, in document order. -/
def ofRule (groups : List String) : Rule → List Occurrence
  | .style r => ofStyleRule groups r
  | .group _ name prelude rules => ofRules (groupScope name prelude :: groups) rules
  | .keyframes .. | .charset .. | .imported .. | .descriptors .. | .statement .. => []

def ofRules (groups : List String) : List Rule → List Occurrence
  | [] => []
  | r :: rest => ofRule groups r ++ ofRules groups rest
end

theorem scope_eq_rootScope (o : Occurrence) : o.scope = rootScope ↔ o.isOutside = true ∨ o.isNamesake = true := by
  obtain ⟨groups, line, text⟩ := o
  cases groups <;> simp [scope, isOutside, isNamesake]

theorem not_isOutside {o : Occurrence} (h : o.isNamesake = true) : ¬ o.isOutside = true := by
  intro outside
  rw [isOutside, List.isEmpty_iff] at outside
  rw [isNamesake, outside] at h
  cases h

/-! Where occurrences are filed. -/

theorem filed_ofStyleRule (groups : List String) (r : StyleRule) :
    (ofStyleRule groups r).map filed = located (groups.headD rootScope, r) := by
  rw [ofStyleRule, List.map_map]
  rfl

mutual
theorem filed_ofRule (groups : List String) (r : Rule) :
    (ofRule groups r).map filed = (placedRule (groups.headD rootScope) r).flatMap located := by
  cases r with
  | style r => rw [ofRule, placedRule, filed_ofStyleRule, List.flatMap_singleton]
  | group _ name prelude rules =>
      rw [ofRule, placedRule]
      exact filed_ofRules (groupScope name prelude :: groups) rules
  | keyframes | charset | imported | descriptors | statement =>
      rw [ofRule, placedRule]
      rfl

theorem filed_ofRules (groups : List String) (rules : List Rule) :
    (ofRules groups rules).map filed = (placedRules (groups.headD rootScope) rules).flatMap located := by
  cases rules with
  | nil =>
      rw [ofRules, placedRules]
      rfl
  | cons r rest =>
      rw [ofRules, placedRules, List.map_append, List.flatMap_append, filed_ofRule groups r, filed_ofRules groups rest]
end

/-! Which of them stand outside of groups. -/

mutual
/-- The groups around a rule are around all that it leads to. -/
theorem suffix_ofRule {groups : List String} {r : Rule} {o : Occurrence} (h : o ∈ ofRule groups r) :
    groups <:+ o.groups := by
  cases r with
  | style r =>
      rw [ofRule, ofStyleRule] at h
      obtain ⟨text, -, rfl⟩ := List.mem_map.mp h
      exact List.suffix_rfl
  | group _ name prelude rules =>
      rw [ofRule] at h
      exact (List.suffix_cons _ groups).trans (suffix_ofRules h)
  | keyframes | charset | imported | descriptors | statement =>
      rw [ofRule] at h
      cases h

theorem suffix_ofRules {groups : List String} {rules : List Rule} {o : Occurrence} (h : o ∈ ofRules groups rules) :
    groups <:+ o.groups := by
  cases rules with
  | nil =>
      rw [ofRules] at h
      cases h
  | cons r rest =>
      rw [ofRules] at h
      obtain first | later := List.mem_append.mp h
      · exact suffix_ofRule first
      · exact suffix_ofRules later
end

theorem outside_ofStyleRule (r : StyleRule) : (ofStyleRule [] r).filter isOutside = ofStyleRule [] r := by
  rw [List.filter_eq_self, ofStyleRule]
  intro o mem
  obtain ⟨text, -, rfl⟩ := List.mem_map.mp mem
  rfl

/-- Outside of groups stand the selectors of the style rules among the rules themselves. -/
theorem outside_ofRules (rules : List Rule) :
    (ofRules [] rules).filter isOutside = (rules.filterMap Rule.style?).flatMap (ofStyleRule []) := by
  induction rules with
  | nil =>
      rw [ofRules]
      rfl
  | cons r rest ih =>
      rw [ofRules, List.filter_append, ih]
      cases r with
      | style r =>
          rw [ofRule, outside_ofStyleRule]
          rfl
      | group _ name prelude rules =>
          have within : (ofRules [groupScope name prelude] rules).filter isOutside = [] := by
            rw [List.filter_eq_nil_iff]
            intro o mem outside
            rw [isOutside, List.isEmpty_iff] at outside
            have around := suffix_ofRules mem
            rw [outside] at around
            cases List.suffix_nil.mp around
          rw [ofRule, within]
          rfl
      | keyframes | charset | imported | descriptors | statement =>
          rw [ofRule]
          rfl

end Occurrence

/-- The selectors of the style rules that stand in no group, for those that start on the line. -/
def selectorsOutside (rules : List Rule) (line : Nat) : List String :=
  ((rules.filterMap Rule.style?).filter (·.line = line)).flatMap (·.selectors)

/-- The selectors filed under the scope and the line are these texts. -/
def SheetAudit.Files (a : SheetAudit) (scope : String) (line : Nat) (texts : List String) : Prop :=
  ∃ lines, (scope, lines) ∈ a.selectorsByLine ∧ (line, texts) ∈ lines

/-- What an audit files under the name of the root. -/
structure FilesRoot (rules : List Rule) (a : SheetAudit) : Prop where
  /-- Each occurrence is filed once, in document order. -/
  filed : a.selectors = (Occurrence.ofRules [] rules).map Occurrence.filed
  /-- It is filed under the name of the root outside of groups, and in a group of that name. -/
  scope : ∀ o ∈ Occurrence.ofRules [] rules, o.scope = rootScope ↔ o.isOutside = true ∨ o.isNamesake = true
  outside : (Occurrence.ofRules [] rules).filter Occurrence.isOutside =
    (rules.filterMap Rule.style?).flatMap (Occurrence.ofStyleRule [])
  held : ∀ line texts, a.Files rootScope line texts ↔ texts ≠ [] ∧
    texts = ((Occurrence.ofRules [] rules).filter fun o => (o.isOutside || o.isNamesake) && o.line = line).map (·.text)
  /-- The section holds what stands outside of groups and nothing else just if no selector stands in such a group. -/
  exact : (∀ line texts, a.Files rootScope line texts ↔ texts ≠ [] ∧ texts = selectorsOutside rules line) ↔
    ∀ o ∈ Occurrence.ofRules [] rules, o.isNamesake = false

theorem texts_ofStyleRule (r : StyleRule) (line : Nat) :
    ((Occurrence.ofStyleRule [] r).filter (·.line = line)).map (·.text) = if r.line = line then r.selectors else [] := by
  rw [Occurrence.ofStyleRule, List.filter_map, List.map_map]
  by_cases here : r.line = line <;> simp [here, Function.comp_def]

theorem selectorsOutside_eq (rules : List Rule) (line : Nat) : selectorsOutside rules line =
    ((Occurrence.ofRules [] rules).filter fun o => o.isOutside && o.line = line).map (·.text) := by
  have outside : (Occurrence.ofRules [] rules).filter (fun o => o.isOutside && o.line = line) =
      ((rules.filterMap Rule.style?).flatMap (Occurrence.ofStyleRule [])).filter (·.line = line) := by
    rw [← Occurrence.outside_ofRules, List.filter_filter]
    simp only [Bool.and_comm]
  rw [outside, selectorsOutside]
  induction rules.filterMap Rule.style? with
  | nil => rfl
  | cons r rest ih =>
      rw [List.flatMap_cons, List.filter_append, List.map_append, texts_ofStyleRule, ← ih, List.filter_cons]
      by_cases here : r.line = line
      · rw [if_pos here, if_pos (decide_eq_true here), List.flatMap_cons]
      · rw [if_neg here, if_neg (by simpa using here), List.nil_append]

theorem entriesOf_filed (occurrences : List Occurrence) (scope : String) (line : Nat) :
    entriesOf line (entriesOf scope (occurrences.map Occurrence.filed)) =
      (occurrences.filter fun o => o.scope = scope && o.line = line).map (·.text) := by
  induction occurrences with
  | nil => rfl
  | cons o rest ih =>
      rw [List.map_cons, Occurrence.filed, entriesOf_cons, List.filter_cons]
      by_cases here : o.scope = scope
      · rw [if_pos here, entriesOf_cons, ih, decide_eq_true here, Bool.true_and]
        by_cases same : o.line = line
        · rw [if_pos same, if_pos (decide_eq_true same), List.map_cons]
        · rw [if_neg same, if_neg (by simpa using same)]
      · rw [if_neg here, ih, decide_eq_false here, Bool.false_and, if_neg Bool.false_ne_true]

/-- Two ways to tell the texts of a line apart from none agree on the texts. -/
theorem texts_unique {found other : List String} (h : ∀ texts, texts ≠ [] ∧ texts = found ↔ texts ≠ [] ∧ texts = other) :
    found = other := by
  by_cases some : found = []
  · by_contra differ
    have visible : other ≠ [] := fun none => differ (some.trans none.symm)
    exact differ ((h other).mpr ⟨visible, rfl⟩).2.symm
  · exact ((h found).mp ⟨some, rfl⟩).2

/-- Where a narrower choice of occurrences gives the same texts, it is the same choice. -/
theorem holds_of_texts {p q : Occurrence → Bool} {occurrences : List Occurrence} (narrower : ∀ o, q o = true → p o = true)
    (same : (occurrences.filter p).map (·.text) = (occurrences.filter q).map (·.text)) {o : Occurrence}
    (mem : o ∈ occurrences) (chosen : p o = true) : q o = true := by
  have lengths := congrArg List.length same
  rw [List.length_map, List.length_map] at lengths
  have part : List.Sublist (occurrences.filter q) (occurrences.filter p) := List.monotone_filter_right _ narrower
  have found : o ∈ occurrences.filter q := by
    rw [part.eq_of_length lengths.symm]
    exact List.mem_filter.mpr ⟨mem, chosen⟩
  exact (List.mem_filter.mp found).2

/-- The audit of a style sheet files a selector under the name of the root if its rule stands in no group or in a group
of that name, and so under that name just the selectors outside of groups unless a selector stands in such a group. -/
theorem ofBytes_root (v : Vocabulary) (path : String) (bytes : List UInt8) (a : SheetAudit)
    (h : SheetAudit.ofBytes v path bytes = .ok a) :
    FilesRoot (Stylesheet.ofText (String.ofList (Text.ofUtf8 bytes))).rules a := by
  obtain ⟨notes, -⟩ := ofBytes_form h
  generalize (Stylesheet.ofText (String.ofList (Text.ofUtf8 bytes))).rules = rules at notes ⊢
  have filed : a.selectors = (Occurrence.ofRules [] rules).map Occurrence.filed := by
    rw [SheetAudit.selectors, notes, ofRules_selectors, Occurrence.filed_ofRules]
    rfl
  have held (line : Nat) (texts : List String) : a.Files rootScope line texts ↔ texts ≠ [] ∧
      texts = ((Occurrence.ofRules [] rules).filter fun o => (o.isOutside || o.isNamesake) && o.line = line).map
        (·.text) := by
    rw [SheetAudit.Files, mem_selectorsByLine, filed, entriesOf_filed, and_comm]
    have same (o : Occurrence) : decide (o.scope = rootScope) = (o.isOutside || o.isNamesake) := by
      rw [Bool.eq_iff_iff, decide_eq_true_iff, o.scope_eq_rootScope, Bool.or_eq_true]
    simp only [same]
  refine ⟨filed, fun o _ => o.scope_eq_rootScope, Occurrence.outside_ofRules rules, held, ?_, ?_⟩
  · intro only o mem
    by_contra namesake
    rw [Bool.not_eq_false] at namesake
    have same := texts_unique fun texts => (held o.line texts).symm.trans (only o.line texts)
    rw [selectorsOutside_eq] at same
    have outside := holds_of_texts (fun o' => ?_) same mem ?_
    · rw [Bool.and_eq_true] at outside
      exact Occurrence.not_isOutside namesake outside.1
    · simp only [Bool.and_eq_true, Bool.or_eq_true]
      exact And.imp_left .inl
    · rw [namesake, Bool.or_true, Bool.true_and, decide_eq_true rfl]
  · intro none line texts
    rw [held, selectorsOutside_eq]
    have same (o : Occurrence) (mem : o ∈ Occurrence.ofRules [] rules) :
        ((o.isOutside || o.isNamesake) && decide (o.line = line)) = (o.isOutside && decide (o.line = line)) := by
      rw [none o mem, Bool.or_false]
    rw [List.filter_congr same]

/-- An audit of bytes succeeds where the inspection of its notes does. -/
theorem exists_ofBytes (v : Vocabulary) (path : String) {bytes : List UInt8} {notes : List Note}
    (noted : Note.ofRules (Stylesheet.ofText (String.ofList (Text.ofUtf8 bytes))).rules = notes)
    (read : (Note.findings v path notes).isOk = true) :
    ∃ a, SheetAudit.ofBytes v path bytes = .ok a ∧ a.notes = notes := by
  rw [SheetAudit.ofBytes, noted]
  cases found : Note.findings v path notes with
  | error e => rw [found] at read; cases read
  | ok findings => exact ⟨_, rfl, rfl⟩

/-- A group with the name of the root, and one with another name. -/
theorem ofBytes_root_media : ∃ a,
    SheetAudit.ofBytes ⟨[], [], []⟩ "x.css" (Text.toUtf8 "a{}@media root{b{}}@media print{c{}}") = .ok a ∧
      FilesRoot
        (Stylesheet.ofText (String.ofList (Text.ofUtf8 (Text.toUtf8 "a{}@media root{b{}}@media print{c{}}")))).rules a ∧
      Occurrence.ofRules []
        (Stylesheet.ofText (String.ofList (Text.ofUtf8 (Text.toUtf8 "a{}@media root{b{}}@media print{c{}}")))).rules =
          [⟨[], 1, "a"⟩, ⟨["root"], 1, "b"⟩, ⟨["print"], 1, "c"⟩] := by
  have notes : Note.ofRules
      (Stylesheet.ofText (String.ofList (Text.ofUtf8 (Text.toUtf8 "a{}@media root{b{}}@media print{c{}}")))).rules =
        [.selector "root" 1 "a", .selector "root" 1 "b", .selector "print" 1 "c"] := by
    decide +kernel
  obtain ⟨a, audited, -⟩ := exists_ofBytes ⟨[], [], []⟩ "x.css" notes (by cbv)
  refine ⟨a, audited, ofBytes_root _ _ _ a audited, ?_⟩
  decide +kernel

/-- A layer with the name of the root. Its selector is filed under the root, and no style rule stands outside of it. -/
theorem ofBytes_root_layer : ∃ a,
    SheetAudit.ofBytes ⟨[], [], []⟩ "/site.css" (Text.toUtf8 "@layer root{a{}}") = .ok a ∧
      a.Files rootScope 1 ["a"] ∧
      (Stylesheet.ofText (String.ofList (Text.ofUtf8 (Text.toUtf8 "@layer root{a{}}")))).rules.filterMap Rule.style? =
        [] := by
  have notes : Note.ofRules (Stylesheet.ofText (String.ofList (Text.ofUtf8 (Text.toUtf8 "@layer root{a{}}")))).rules =
      [.selector "root" 1 "a"] := by
    decide +kernel
  obtain ⟨a, audited, noted⟩ := exists_ofBytes ⟨[], [], []⟩ "/site.css" notes (by cbv)
  have filed : a.selectorsByLine = [("root", [(1, ["a"])])] := by
    rw [SheetAudit.selectorsByLine, SheetAudit.selectors, noted]
    decide +kernel
  refine ⟨a, audited, ?_, by decide +kernel⟩
  rw [SheetAudit.Files, filed]
  exact ⟨_, List.mem_singleton_self _, List.mem_singleton_self _⟩

end StyleAudit
