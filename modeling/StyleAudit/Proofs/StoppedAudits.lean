import StyleAudit.Proofs.SheetSelectors
/-!
Stopped audits: an audit is stopped by a rule that belongs to the top level and stands in a group, and by a selector that
comes to be read while a nesting selector or a column combinator stands in it. Nothing else stops it, and of several such
places the first in document order is the one that is reported.
-/
namespace StyleAudit

open Css (Rule StyleRule Stylesheet)
open Selector (Unmodeled Simple Combinator Compound)

/-! Constructs that have no place in chains. -/

namespace Selector

/-- The compounds of a selector in source order, each with the combinator behind it. -/
def linked (first : Compound) : List (Combinator × Compound) → List (Compound × Option Combinator)
  | [] => [(first, none)]
  | (sign, compound) :: rest => (first, some sign) :: linked compound rest

/-- The nesting selectors in a compound, then a column combinator behind it. -/
def linkConstructs (link : Compound × Option Combinator) : List Unmodeled :=
  (link.1.filter Simple.nests).map (fun _ => .nesting) ++
    (link.2.toList.filter (· = .column)).map fun _ => .column

/-- What chains have no place for in a selector, compound by compound from right to left. -/
def Complex.constructs (c : Complex) : List Unmodeled := (linked c.first c.links).reverse.flatMap linkConstructs

/-- The construct that chains stop at. -/
def stop? {α : Type} : Except Unmodeled α → Option Unmodeled
  | .ok _ => none
  | .error construct => some construct

theorem stop?_bind {α β : Type} (e : Except Unmodeled α) (f : α → β) :
    stop? (e >>= fun a => pure (f a)) = stop? e := by
  cases e <;> rfl

theorem stop?_mapM {α β : Type} (f : α → Except Unmodeled β) (xs : List α) :
    stop? (xs.mapM f) = xs.findSome? fun x => stop? (f x) := by
  induction xs with
  | nil => rfl
  | cons x rest ih =>
      rw [List.mapM_cons, List.findSome?_cons, ← ih]
      cases f x with
      | error construct => rfl
      | ok y => exact stop?_bind (rest.mapM f) (y :: ·)

theorem stop?_part (s : Simple) : stop? s.part = if s.nests then some .nesting else none := by
  induction s with
  | nesting => rfl
  | negation argument ih =>
      rw [Simple.nests, ← ih, Simple.part]
      cases argument.part <;> rfl
  | _ => rfl

theorem stop?_parts (compound : Compound) :
    stop? (compound.mapM Simple.part) = ((compound.filter Simple.nests).map fun _ => Unmodeled.nesting).head? := by
  rw [stop?_mapM]
  induction compound with
  | nil => rfl
  | cons s rest ih =>
      rw [List.findSome?_cons, stop?_part, ih, List.filter_cons]
      by_cases nests : s.nests = true
      · rw [if_pos nests, if_pos nests]
        rfl
      · rw [if_neg nests, if_neg nests]

theorem stop?_relation (sign : Combinator) :
    stop? sign.relation = (((some sign).toList.filter (· = .column)).map fun _ => Unmodeled.column).head? := by
  cases sign <;> rfl

/-- Chains are made from the right, so that the last construct that they have no place for is the first they meet. -/
theorem stop?_chainFrom (first : Compound) (links : List (Combinator × Compound)) :
    stop? (chainFrom first links) = ((linked first links).reverse.flatMap linkConstructs).head? := by
  induction links generalizing first with
  | nil =>
      rw [chainFrom, stop?_bind, stop?_parts, linked]
      simp [linkConstructs]
  | cons link rest ih =>
      obtain ⟨sign, compound⟩ := link
      rw [linked, List.reverse_cons, List.flatMap_append, List.head?_append, ← ih, List.flatMap_singleton, linkConstructs,
        List.head?_append, ← stop?_parts, ← stop?_relation, chainFrom]
      cases chainFrom compound rest with
      | error construct => rfl
      | ok next =>
          cases first.mapM Simple.part with
          | error construct => rfl
          | ok parts => cases sign.relation <;> rfl

theorem stop?_chains (list : List Complex) : stop? (chains list) = (list.flatMap Complex.constructs).head? := by
  rw [chains, stop?_mapM, List.head?_flatMap]
  exact congrArg (list.findSome? ·) (funext fun c => stop?_chainFrom c.first c.links)

/-- A compound counts before the combinator behind it. -/
example : (⟨[.nesting], [(.column, [.element "a"])]⟩ : Complex).constructs = [.nesting, .column] := by decide

end Selector

/-! Selectors that stop an audit. -/

/-- After some repairs, each of a text that was rejected, the text is read, and the construct is the first in it that
chains have no place for. -/
def ComesTo (text : List Char) (construct : Unmodeled) : Prop :=
  ∃ passes list, passes ≤ repairLimit ∧ (∀ k < passes, ∃ rejection, IsRejected (mendedTimes k text) rejection) ∧
    Selector.selectors 0 (mendedTimes passes text) = .ok list ∧
    (list.flatMap Selector.Complex.constructs).head? = some construct

theorem mendedTimes_of_idle {text : List Char} {k : Nat} (trimmed : Text.trim text = text)
    (idle : (Selector.repair (mendedTimes k text)).count = 0) (more : Nat) :
    mendedTimes (k + more) text = mendedTimes k text := by
  have trim : Text.trim (mendedTimes k text) = mendedTimes k text := by
    cases k with
    | zero => exact trimmed
    | succ k => exact Selector.trim_repair (mendedTimes k text)
  induction more with
  | zero => rfl
  | succ more ih =>
      rw [← Nat.add_assoc, mendedTimes, ih, Selector.repair_of_count idle]
      exact trim

theorem inspect_stopped_iff {v : Vocabulary} {line : Nat} {selector : String} {construct : Unmodeled} :
    (inspect v line selector).stopped = some construct ↔ ComesTo (Text.trim selector.toList) construct := by
  have trimmed := Text.trim_trim selector.toList
  obtain ⟨passes, ending, course, same⟩ := exists_course v line selector repairLimit trimmed
  have stopped : (inspect v line selector).stopped =
      (ending.inspection line {} (recordedRepairs line passes (Text.trim selector.toList))).stopped :=
    congrArg Inspection.stopped (same {})
  rw [stopped]
  constructor
  · intro found
    cases course.ends with
    | unmodeled accepted _ unchained =>
        obtain rfl := Option.some.inj found
        refine ⟨passes, _, course.bounded, course.rejected, accepted, ?_⟩
        rw [← Selector.stop?_chains, unchained]
        rfl
    | _ => cases found
  · rintro ⟨passes', list, bounded, rejected, accepted, first⟩
    have here : passes' = passes := by
      refine Nat.le_antisymm (Nat.not_lt.mp fun before => ?_) (Nat.not_lt.mp fun before => ?_)
      · -- the course ended where the text was still rejected, so that no repair behind it changes anything
        obtain ⟨rejection, still⟩ := rejected passes before
        cases course.ends with
        | emptied none => exact still.1 none
        | read accepted' _ _ => exact still.not_accepted accepted'
        | unmodeled accepted' _ _ => exact still.not_accepted accepted'
        | limited full _ _ => omega
        | @stuck k _ last none _ =>
            obtain ⟨more, rfl⟩ : ∃ more, passes' = k + more := ⟨passes' - k, by omega⟩
            rw [last, mendedTimes_of_idle trimmed none] at still
            rw [mendedTimes_of_idle trimmed none] at accepted
            exact still.not_accepted accepted
      · obtain ⟨rejection, still⟩ := course.rejected passes' before
        exact still.not_accepted accepted
    subst here
    rw [course.ends.of_accepted accepted]
    rw [← Selector.stop?_chains] at first
    cases found : Selector.chains list with
    | ok cs =>
        rw [found] at first
        cases first
    | error construct' =>
        rw [found] at first
        exact first

/-! Places that may stop an audit. -/

/-- A place in a style sheet: a selector on the line of its rule, or a rule of the top level in the group that starts on
the line. -/
inductive Spot where
  | selector (line : Nat) (text : String)
  | item (groupLine : Nat) (construct : String)

/-- What a rule without a block is called. -/
def blockless? : Rule → Option String
  | .charset .. => some "@charset"
  | .imported .. => some "@import"
  | .statement _ name _ => some ("@" ++ name)
  | .style .. | .group .. | .keyframes .. | .descriptors .. => none

mutual
/-- The places in a rule in document order, given the line of the group around it if there is one. -/
def walkRule (around : Option Nat) : Rule → List Spot
  | .style r => r.selectors.map (.selector r.line)
  | .group line _ _ rules => walkRules (some line) rules
  | r => around.toList.flatMap fun line => (blockless? r).toList.map (.item line)

def walkRules (around : Option Nat) : List Rule → List Spot
  | [] => []
  | r :: rest => walkRule around r ++ walkRules around rest
end

/-- The place stops an audit with the error. -/
inductive Spot.Stops (path : String) : Spot → AuditError → Prop
  | selector {line : Nat} {text : String} {construct : Unmodeled} : ComesTo (Text.trim text.toList) construct →
      Stops path (.selector line text) (.unmodeled path line construct)
  | item (groupLine : Nat) (construct : String) :
      Stops path (.item groupLine construct) (.groupItem path groupLine construct)

/-- The error of the inspection of a place. -/
def Spot.error? (v : Vocabulary) (path : String) : Spot → Option AuditError
  | .selector line text => (inspect v line text).stopped.map (.unmodeled path line)
  | .item groupLine construct => some (.groupItem path groupLine construct)

theorem Spot.error?_eq_some_iff {v : Vocabulary} {path : String} {spot : Spot} {e : AuditError} :
    spot.error? v path = some e ↔ spot.Stops path e := by
  cases spot with
  | selector line text =>
      rw [Spot.error?, Option.map_eq_some_iff]
      constructor
      · rintro ⟨construct, stopped, rfl⟩
        exact .selector (inspect_stopped_iff.mp stopped)
      · rintro ⟨comes⟩
        exact ⟨_, inspect_stopped_iff.mpr comes, rfl⟩
  | item groupLine construct =>
      constructor
      · intro same
        obtain rfl := Option.some.inj same
        exact .item groupLine construct
      · rintro ⟨⟩
        rfl

theorem Spot.error?_eq_none_iff {v : Vocabulary} {path : String} {spot : Spot} :
    spot.error? v path = none ↔ ∀ e, ¬ spot.Stops path e := by
  rw [Option.eq_none_iff_forall_ne_some]
  exact forall_congr' fun e => not_congr error?_eq_some_iff

/-! Notes on places. -/

/-- The place that a note is about, if it may stop an audit. -/
def Note.spot? : Note → Option Spot
  | .selector _ line text => some (.selector line text)
  | .misplaced line construct => some (.item line construct)
  | .imported .. | .families .. | .uncategorized .. => none

theorem ofStyleRule_spots (scope : String) (r : StyleRule) :
    (Note.ofStyleRule scope r).filterMap Note.spot? = r.selectors.map (.selector r.line) := by
  rw [Note.ofStyleRule, List.filterMap_map]
  exact congrFun List.filterMap_eq_map r.selectors

mutual
theorem ofGroupedRule_spots (line : Nat) (scope : String) (r : Rule) :
    (Note.ofGroupedRule line scope r).filterMap Note.spot? = walkRule (some line) r := by
  cases r with
  | style r => rw [Note.ofGroupedRule, walkRule, ofStyleRule_spots]
  | group inner name prelude rules =>
      rw [Note.ofGroupedRule, walkRule]
      exact ofGroupedRules_spots inner (groupScope name prelude) rules
  | descriptors inner name _ ds =>
      rw [Note.ofGroupedRule, ofDescriptors_view (fun _ _ => rfl) (fun _ _ => rfl), walkRule]
      all_goals first | rfl | nofun
  | keyframes | charset | imported | statement =>
      rw [Note.ofGroupedRule, walkRule]
      all_goals first | rfl | nofun

theorem ofGroupedRules_spots (line : Nat) (scope : String) (rules : List Rule) :
    (Note.ofGroupedRules line scope rules).filterMap Note.spot? = walkRules (some line) rules := by
  cases rules with
  | nil =>
      rw [Note.ofGroupedRules, walkRules]
      rfl
  | cons r rest =>
      rw [Note.ofGroupedRules, walkRules, List.filterMap_append, ofGroupedRule_spots line scope r,
        ofGroupedRules_spots line scope rest]
end

theorem ofRule_spots (r : Rule) : (Note.ofRule r).filterMap Note.spot? = walkRule none r := by
  cases r with
  | style r => rw [Note.ofRule, walkRule, ofStyleRule_spots]
  | group line name prelude rules =>
      rw [Note.ofRule, walkRule]
      exact ofGroupedRules_spots line (groupScope name prelude) rules
  | descriptors line name _ ds =>
      rw [Note.ofRule, ofDescriptors_view (fun _ _ => rfl) (fun _ _ => rfl), walkRule]
      all_goals first | rfl | nofun
  | keyframes | charset | imported | statement =>
      rw [Note.ofRule, walkRule]
      all_goals first | rfl | nofun

theorem ofRules_spots (rules : List Rule) : (Note.ofRules rules).filterMap Note.spot? = walkRules none rules := by
  induction rules with
  | nil =>
      rw [walkRules]
      rfl
  | cons r rest ih =>
      rw [walkRules, ← ofRule_spots, ← ih, ← List.filterMap_append]
      rfl

/-- The findings of notes come to an error just where one of the places does, and to that of the first. -/
theorem findings_eq_error_iff {v : Vocabulary} {path : String} {notes : List Note} {e : AuditError} :
    Note.findings v path notes = .error e ↔ (notes.filterMap Note.spot?).findSome? (Spot.error? v path) = some e := by
  induction notes with
  | nil =>
      constructor
      · intro failed
        cases failed
      · intro failed
        cases failed
  | cons note rest ih =>
      cases note with
      | selector scope line text =>
          have spot : Note.spot? (.selector scope line text) = some (.selector line text) := rfl
          rw [List.filterMap_cons_some spot, List.findSome?_cons, Spot.error?, Note.findings]
          generalize inspect v line text = first
          obtain ⟨found, stopped⟩ := first
          cases stopped with
          | some construct => simp
          | none =>
              rw [Option.map_none, ← ih]
              cases Note.findings v path rest <;> simp [Except.map]
      | misplaced line construct =>
          have spot : Note.spot? (.misplaced line construct) = some (.item line construct) := rfl
          rw [List.filterMap_cons_some spot, List.findSome?_cons, Spot.error?, Note.findings]
          simp
      | imported | families | uncategorized => exact ih

theorem ofBytes_eq_error_iff {v : Vocabulary} {path : String} {bytes : List UInt8} {e : AuditError} :
    SheetAudit.ofBytes v path bytes = .error e ↔
      Note.findings v path (Note.ofRules (Stylesheet.ofText (String.ofList (Text.ofUtf8 bytes))).rules) = .error e := by
  rw [SheetAudit.ofBytes]
  cases Note.findings v path (Note.ofRules (Stylesheet.ofText (String.ofList (Text.ofUtf8 bytes))).rules) with
  | ok findings =>
      constructor
      · intro failed
        cases failed
      · intro failed
        cases failed
  | error e' => rw [Except.map, Except.error.injEq, Except.error.injEq]

/-- An audit of bytes fails just where a place in the rules stops it, and with the error of the first such place in
document order. What is wrong with the style sheet or its selectors otherwise never makes it fail. -/
theorem ofBytes_fails (v : Vocabulary) (path : String) (bytes : List UInt8) :
    ((∃ e, SheetAudit.ofBytes v path bytes = .error e) ↔
        ∃ spot ∈ walkRules none (Stylesheet.ofText (String.ofList (Text.ofUtf8 bytes))).rules,
          ∃ e, spot.Stops path e) ∧
      ∀ e, SheetAudit.ofBytes v path bytes = .error e ↔
        ∃ before spot after,
          walkRules none (Stylesheet.ofText (String.ofList (Text.ofUtf8 bytes))).rules = before ++ spot :: after ∧
            (∀ earlier ∈ before, ∀ e', ¬ earlier.Stops path e') ∧ spot.Stops path e := by
  have fails : ∀ e, SheetAudit.ofBytes v path bytes = .error e ↔
      (walkRules none (Stylesheet.ofText (String.ofList (Text.ofUtf8 bytes))).rules).findSome? (Spot.error? v path) =
        some e := by
    intro e
    rw [ofBytes_eq_error_iff, findings_eq_error_iff, ofRules_spots]
  generalize walkRules none (Stylesheet.ofText (String.ofList (Text.ofUtf8 bytes))).rules = spots at fails ⊢
  simp only [fails]
  constructor
  · rw [← Option.isSome_iff_exists, List.findSome?_isSome_iff]
    simp only [Option.isSome_iff_exists, Spot.error?_eq_some_iff]
  · intro e
    rw [List.findSome?_eq_some_iff]
    simp only [Spot.error?_eq_some_iff, Spot.error?_eq_none_iff]
    refine exists_congr fun before => exists_congr fun spot => exists_congr fun after => and_congr_right fun _ => ?_
    exact and_comm

end StyleAudit
