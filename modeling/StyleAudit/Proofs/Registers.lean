import StyleAudit.Proofs.Buckets
import StyleAudit.Proofs.InspectionCourse
/-!
Registers: the findings about selectors kept in buckets, and filled while the selectors are inspected one after the
other. No inspection looks at what is in the register already, so the buckets of two runs are those of the first followed
by those of the second, and the sizes of the buckets do not depend on the order of the selectors.
-/
namespace StyleAudit

open Selector (Unmodeled Part)

/-- An entry behind all others of its key. -/
def fileUnder {κ α : Type} [DecidableEq κ] (key : κ) (entry : α) (buckets : κ → List α) : κ → List α :=
  fun k => if key = k then buckets k ++ [entry] else buckets k

/-- What has been filed about selectors: repairs by kind and line, failures by line, and the uses of vocabularies by
name. -/
@[ext] structure Register where
  repairs : RepairKind → Nat → List Replacement := fun _ _ => []
  failures : Nat → List Failure := fun _ => []
  elements : String → List Nat := fun _ => []
  microformats : String → List Nat := fun _ => []
  wellKnown : String → List Nat := fun _ => []
  wellKnownFormat : String → List Nat := fun _ => []
  oneLetter : String → List (Nat × String) := fun _ => []
  twoLetters : String → List (Nat × String) := fun _ => []

namespace Register

/-- Each bucket of the second register behind the same bucket of the first. -/
instance : Append Register where
  append r s :=
    { repairs := fun kind line => r.repairs kind line ++ s.repairs kind line
      failures := fun line => r.failures line ++ s.failures line
      elements := fun name => r.elements name ++ s.elements name
      microformats := fun name => r.microformats name ++ s.microformats name
      wellKnown := fun name => r.wellKnown name ++ s.wellKnown name
      wellKnownFormat := fun name => r.wellKnownFormat name ++ s.wellKnownFormat name
      oneLetter := fun letter => r.oneLetter letter ++ s.oneLetter letter
      twoLetters := fun letters => r.twoLetters letters ++ s.twoLetters letters }

def recordRepair (line : Nat) (r : Register) (repair : RepairKind × Replacement) : Register :=
  { r with repairs := fun kind =>
      if repair.1 = kind then fileUnder line repair.2 (r.repairs kind) else r.repairs kind }

def recordFailure (line : Nat) (r : Register) (failure : Failure) : Register :=
  { r with failures := fileUnder line failure r.failures }

def recordUse (line : Nat) (r : Register) : Use → Register
  | .element name => { r with elements := fileUnder name line r.elements }
  | .microformat name => { r with microformats := fileUnder name line r.microformats }
  | .wellKnown name => { r with wellKnown := fileUnder name line r.wellKnown }
  | .wellKnownFormat name => { r with wellKnownFormat := fileUnder name line r.wellKnownFormat }
  | .oneLetter letter token => { r with oneLetter := fileUnder letter (line, token) r.oneLetter }
  | .twoLetters letters token => { r with twoLetters := fileUnder letters (line, token) r.twoLetters }

/-- A part of a selector is filed if it is a use of a vocabulary. -/
def classify (v : Vocabulary) (line : Nat) (r : Register) (part : Part) : Register :=
  match partUse? v part with
  | some use => r.recordUse line use
  | none => r

/-- The inspection of a selector as it is now, with the given number of repairs left; what it finds is filed on the
way. -/
def inspectFrom (v : Vocabulary) (line : Nat) (written : String) (r : Register) (rounds : Nat) (current : List Char) :
    Register × Option Unmodeled :=
  if current = [] then (r, none)
  else match Selector.selectors 0 current with
    | .ok selectors =>
      match Selector.chains selectors with
      | .ok chains => ((chains.flatMap Selector.Chain.parts).foldl (classify v line) r, none)
      | .error e => (r, some e)
    | .error rejection =>
      match rounds with
      | 0 =>
        (r.recordFailure line ⟨written, String.ofList current,
          "repair limit of " ++ toString repairLimit ++ " rounds reached: " ++ rejection.text⟩, none)
      | more + 1 =>
        let repaired := Selector.repair current
        if repaired.count = 0 then (r.recordFailure line ⟨written, String.ofList current, rejection.text⟩, none)
        else inspectFrom v line written (repaired.recorded.foldl (recordRepair line) r) more repaired.text

/-- The inspection of a selector of the file, and whether anything stopped it. -/
def inspect (v : Vocabulary) (scanPath : String) (r : Register) (selector : String) (line : Nat) :
    Register × Except AuditError Unit :=
  match r.inspectFrom v line selector repairLimit (Text.trim selector.toList) with
  | (r, none) => (r, .ok ())
  | (r, some construct) => (r, .error (.unmodeled scanPath line construct))

/-- The inspection of selectors with their lines, one after the other, also behind one that was stopped. -/
def inspectAll (v : Vocabulary) (scanPath : String) (r : Register) :
    List (String × Nat) → Register × List (Except AuditError Unit)
  | [] => (r, [])
  | (selector, line) :: rest =>
    let (next, result) := r.inspect v scanPath selector line
    let (last, results) := inspectAll v scanPath next rest
    (last, result :: results)

/-! Registers as views of a record. -/

/-- What the record of findings holds in each of its buckets. -/
def ofFindings (f : Findings) : Register where
  repairs kind line := bucketOf line (f.replacements kind)
  failures line := bucketOf line f.failuresByLine
  elements name := bucketOf name f.elements
  microformats name := bucketOf name f.microformats
  wellKnown name := bucketOf name f.wellKnown
  wellKnownFormat name := bucketOf name f.wellKnownFormat
  oneLetter letter := bucketOf letter f.oneLetter
  twoLetters letters := bucketOf letters f.twoLetters

@[simp] theorem append_empty (r : Register) : r ++ ({} : Register) = r := by
  ext1 <;> funext <;> exact List.append_nil _

@[simp] theorem empty_append (r : Register) : ({} : Register) ++ r = r := by
  ext1 <;> funext <;> exact List.nil_append _

theorem append_assoc (r s t : Register) : r ++ s ++ t = r ++ (s ++ t) := by
  ext1 <;> funext <;> exact List.append_assoc _ _ _

theorem bucketOf_replacements (kind : RepairKind) (line : Nat) (f : Findings) :
    bucketOf line (f.replacements kind) =
      entriesOf line ((f.repairs.filter (·.kind = kind)).map fun r => (r.line, r.replacement)) :=
  bucketOf_grouped _ _

theorem bucketOf_view {α : Type} (f : Findings) (pick : Nat → Use → Option (String × α)) (name : String) :
    bucketOf name (f.view pick) = entriesOf name (f.uses.filterMap fun (line, use) => pick line use) :=
  bucketOf_grouped _ _

theorem bucketOf_view_append {α : Type} (f g : Findings) (pick : Nat → Use → Option (String × α)) (name : String) :
    bucketOf name ((f ++ g).view pick) = bucketOf name (f.view pick) ++ bucketOf name (g.view pick) := by
  rw [bucketOf_view, bucketOf_view, bucketOf_view, Findings.uses_append, List.filterMap_append, entriesOf_append]

/-- The buckets of two records are those of the first followed by those of the second. -/
theorem ofFindings_append (f g : Findings) : ofFindings (f ++ g) = ofFindings f ++ ofFindings g := by
  ext1
  case repairs =>
    funext kind line
    change bucketOf line _ = bucketOf line _ ++ bucketOf line _
    rw [bucketOf_replacements, bucketOf_replacements, bucketOf_replacements, Findings.repairs_append,
      List.filter_append, List.map_append, entriesOf_append]
  case failures =>
    funext line
    change bucketOf line (grouped _) = bucketOf line (grouped _) ++ bucketOf line (grouped _)
    rw [bucketOf_grouped, bucketOf_grouped, bucketOf_grouped, Findings.failures_append, entriesOf_append]
  all_goals
    funext name
    exact bucketOf_view_append f g _ name

/-! Filing while inspecting. -/

theorem fileUnder_eq {κ α : Type} [DecidableEq κ] (key : κ) (entry : α) (buckets : κ → List α) (k : κ) :
    fileUnder key entry buckets k = buckets k ++ entriesOf k [(key, entry)] := by
  rw [fileUnder, entriesOf_cons]
  split
  · rfl
  · exact (List.append_nil _).symm

theorem recordRepair_eq (line : Nat) (r : Register) (repair : RepairKind × Replacement) :
    r.recordRepair line repair = r ++ ofFindings (.repair line repair.1 repair.2) := by
  ext1
  case repairs =>
    funext kind k
    change _ = r.repairs kind k ++ bucketOf k _
    rw [bucketOf_replacements, recordRepair]
    by_cases same : repair.1 = kind
    · simp [Findings.repair, same, fileUnder_eq]
    · simp [Findings.repair, same, entriesOf]
  all_goals
    funext key
    exact (List.append_nil _).symm

theorem recordFailure_eq (line : Nat) (r : Register) (failure : Failure) :
    r.recordFailure line failure = r ++ ofFindings (.failure line failure) := by
  ext1
  case failures =>
    funext k
    change fileUnder line failure r.failures k = r.failures k ++ bucketOf k (grouped _)
    rw [fileUnder_eq, bucketOf_grouped]
    rfl
  all_goals
    funext
    exact (List.append_nil _).symm

theorem recordUse_eq (line : Nat) (r : Register) (use : Use) :
    r.recordUse line use = r ++ ofFindings (.ofUses line [use]) := by
  cases use <;>
  · ext1 <;>
    · funext
      first
      | exact (List.append_nil _).symm
      | exact (fileUnder_eq _ _ _ _).trans (congrArg _ (bucketOf_grouped _ _).symm)

/-- The parts of a selector, filed one after the other. -/
theorem classify_all (v : Vocabulary) (line : Nat) (parts : List Part) (r : Register) :
    parts.foldl (classify v line) r = r ++ ofFindings (.ofUses line (parts.filterMap (partUse? v))) := by
  induction parts generalizing r with
  | nil => exact (append_empty r).symm
  | cons part rest ih =>
      rw [List.foldl_cons, ih, classify]
      cases found : partUse? v part with
      | none => rw [List.filterMap_cons_none found]
      | some use =>
          have both : Findings.ofUses line (use :: rest.filterMap (partUse? v)) =
              .ofUses line [use] ++ .ofUses line (rest.filterMap (partUse? v)) := rfl
          rw [List.filterMap_cons_some found, both, ofFindings_append, ← append_assoc]
          exact congrArg (· ++ _) (recordUse_eq line r use)

/-- The repairs of a round, filed one after the other. -/
theorem recordRepair_all (line : Nat) (repairs : List (RepairKind × Replacement)) (r : Register) :
    repairs.foldl (recordRepair line) r =
      r ++ ofFindings { repairs := repairs.map fun (kind, replacement) => ⟨line, kind, replacement⟩ } := by
  induction repairs generalizing r with
  | nil => exact (append_empty r).symm
  | cons repair rest ih =>
      have both : ({ repairs := (repair :: rest).map fun (kind, replacement) => ⟨line, kind, replacement⟩ } : Findings) =
          .repair line repair.1 repair.2 ++
            { repairs := rest.map fun (kind, replacement) => ⟨line, kind, replacement⟩ } := rfl
      rw [List.foldl_cons, ih, both, ofFindings_append, ← append_assoc, recordRepair_eq]

/-- A text that is not rejected is not repaired, so that only uses are filed. -/
theorem inspectFrom_unrejected (v : Vocabulary) (line : Nat) (written : String) (r : Register) (rounds : Nat)
    {current : List Char} (h : ∀ rejection, ¬ IsRejected current rejection) :
    r.inspectFrom v line written rounds current =
      (r ++ ofFindings (StyleAudit.inspectFrom v line written rounds current).findings,
        (StyleAudit.inspectFrom v line written rounds current).stopped) := by
  rw [inspectFrom.eq_def, StyleAudit.inspectFrom.eq_def]
  by_cases none : current = []
  · rw [if_pos none, if_pos none]
    exact Prod.ext (append_empty r).symm rfl
  · rw [if_neg none, if_neg none]
    cases read : Selector.selectors 0 current with
    | error rejection => exact absurd ⟨none, read⟩ (h rejection)
    | ok selectors =>
        cases found : Selector.chains selectors with
        | error construct =>
            dsimp only
            rw [found, selectorUses_error found]
            exact Prod.ext (append_empty r).symm rfl
        | ok chains =>
            dsimp only
            rw [found, selectorUses_ok found]
            exact Prod.ext (classify_all v line _ r) rfl

/-- An inspection files what it finds behind what was filed before, and what stops it does not depend on that. -/
theorem inspectFrom_eq (v : Vocabulary) (line : Nat) (written : String) (r : Register) (rounds : Nat)
    (current : List Char) :
    r.inspectFrom v line written rounds current =
      (r ++ ofFindings (StyleAudit.inspectFrom v line written rounds current).findings,
        (StyleAudit.inspectFrom v line written rounds current).stopped) := by
  -- on the rounds that are left; a round files its repairs in front of what the others file
  induction rounds generalizing r current with
  | zero =>
      by_cases unrejected : ∀ rejection, ¬ IsRejected current rejection
      · exact inspectFrom_unrejected v line written r 0 unrejected
      · simp only [not_forall, not_not] at unrejected
        obtain ⟨rejection, rejected⟩ := unrejected
        rw [inspectFrom.eq_def, if_neg rejected.1, rejected.2, inspectFrom_limited rejected]
        exact Prod.ext (recordFailure_eq line r _) rfl
  | succ more ih =>
      by_cases unrejected : ∀ rejection, ¬ IsRejected current rejection
      · exact inspectFrom_unrejected v line written r (more + 1) unrejected
      · simp only [not_forall, not_not] at unrejected
        obtain ⟨rejection, rejected⟩ := unrejected
        rw [inspectFrom.eq_def, if_neg rejected.1, rejected.2]
        dsimp only
        by_cases none : (Selector.repair current).count = 0
        · rw [if_pos none, inspectFrom_stuck rejected none]
          exact Prod.ext (recordFailure_eq line r _) rfl
        · rw [if_neg none, inspectFrom_again rejected none, recordRepair_all, ih, append_assoc, ← ofFindings_append]
          rfl

/-- What an inspection comes to where nothing is filed yet. -/
def result (v : Vocabulary) (scanPath : String) (selector : String) (line : Nat) : Except AuditError Unit :=
  (inspect v scanPath {} selector line).2

theorem inspect_stopped (v : Vocabulary) (scanPath : String) (r : Register) (selector : String) (line : Nat) :
    r.inspect v scanPath selector line =
      (r ++ ofFindings (StyleAudit.inspect v line selector).findings,
        match (StyleAudit.inspect v line selector).stopped with
        | none => .ok ()
        | some construct => .error (.unmodeled scanPath line construct)) := by
  rw [inspect, inspectFrom_eq, ← StyleAudit.inspect]
  cases (StyleAudit.inspect v line selector).stopped <;> rfl

theorem inspect_eq (v : Vocabulary) (scanPath : String) (r : Register) (selector : String) (line : Nat) :
    r.inspect v scanPath selector line =
      (r ++ ofFindings (StyleAudit.inspect v line selector).findings, result v scanPath selector line) := by
  rw [result, inspect_stopped, inspect_stopped]

end Register

/-- The findings about selectors with their lines, in the order of the selectors. -/
def findingsOf (v : Vocabulary) : List (String × Nat) → Findings
  | [] => {}
  | (selector, line) :: rest => (inspect v line selector).findings ++ findingsOf v rest

namespace Register

/-- A run files behind what was filed before, and each of its inspections comes to what it comes to alone. -/
theorem inspectAll_eq (v : Vocabulary) (scanPath : String) (r : Register) (selectors : List (String × Nat)) :
    r.inspectAll v scanPath selectors =
      (r ++ ofFindings (findingsOf v selectors), selectors.map fun s => result v scanPath s.1 s.2) := by
  induction selectors generalizing r with
  | nil => exact Prod.ext (append_empty r).symm rfl
  | cons s rest ih =>
      obtain ⟨selector, line⟩ := s
      rw [inspectAll, inspect_eq]
      dsimp only
      rw [ih, findingsOf, ofFindings_append, ← append_assoc]
      rfl

end Register

/-! The order of the selectors. -/

/-- Something that is counted in findings. -/
structure IsCount (count : Findings → Nat) : Prop where
  empty : count {} = 0
  append : ∀ f g, count (f ++ g) = count f + count g

namespace IsCount

theorem findingsOf {count : Findings → Nat} (h : IsCount count) (v : Vocabulary) (selectors : List (String × Nat)) :
    count (findingsOf v selectors) = (selectors.map fun s => count (inspect v s.2 s.1).findings).sum := by
  induction selectors with
  | nil => exact h.empty
  | cons s rest ih => rw [StyleAudit.findingsOf, h.append, ih, List.map_cons, List.sum_cons]

/-- A count is the same for the same selectors in another order. -/
theorem perm {count : Findings → Nat} (h : IsCount count) (v : Vocabulary) {selectors others : List (String × Nat)}
    (same : selectors.Perm others) : count (StyleAudit.findingsOf v selectors) = count (StyleAudit.findingsOf v others) := by
  rw [h.findingsOf, h.findingsOf]
  exact (same.map _).sum_eq

theorem severity (s : Severity) : IsCount (·.count s) := by
  cases s <;> exact ⟨rfl, fun f g => by simp [Findings.count]⟩

theorem total_view {α : Type} (pick : Nat → Use → Option (String × α)) :
    IsCount fun f => Findings.total (f.view pick) := by
  refine ⟨rfl, fun f g => ?_⟩
  simp only [Findings.view, total_grouped, Findings.uses_append, List.filterMap_append, List.length_append]

theorem add {count other : Findings → Nat} (h : IsCount count) (h' : IsCount other) :
    IsCount fun f => count f + other f := by
  refine ⟨by rw [h.empty, h'.empty], fun f g => ?_⟩
  rw [h.append, h'.append]
  omega

/-- The entries of a bucket. -/
theorem bucket {α : Type} (bucket : Register → List α) (empty : bucket {} = [])
    (append : ∀ r s, bucket (r ++ s) = bucket r ++ bucket s) :
    IsCount fun f => (bucket (.ofFindings f)).length := by
  refine ⟨?_, fun f g => ?_⟩
  · rw [show Register.ofFindings {} = {} from rfl, empty, List.length_nil]
  · rw [Register.ofFindings_append, append, List.length_append]

end IsCount

/-- Registers of which each bucket of one has as many entries as that of the other. -/
structure Register.SameSizes (r s : Register) : Prop where
  repairs : ∀ kind line, (r.repairs kind line).length = (s.repairs kind line).length
  failures : ∀ line, (r.failures line).length = (s.failures line).length
  elements : ∀ name, (r.elements name).length = (s.elements name).length
  microformats : ∀ name, (r.microformats name).length = (s.microformats name).length
  wellKnown : ∀ name, (r.wellKnown name).length = (s.wellKnown name).length
  wellKnownFormat : ∀ name, (r.wellKnownFormat name).length = (s.wellKnownFormat name).length
  oneLetter : ∀ letter, (r.oneLetter letter).length = (s.oneLetter letter).length
  twoLetters : ∀ letters, (r.twoLetters letters).length = (s.twoLetters letters).length

/-- Findings of which everything that is counted is as many in one as in the other. -/
structure Findings.SameCounts (f g : Findings) : Prop where
  severities : ∀ s, f.count s = g.count s
  elements : f.elementCount = g.elementCount
  microformats : f.microformatCount = g.microformatCount
  microformats2 : f.microformat2Count = g.microformat2Count
  shortStarts : f.shortStartCount = g.shortStartCount
  buckets : (Register.ofFindings f).SameSizes (Register.ofFindings g)

theorem sameCounts_of_perm (v : Vocabulary) {selectors others : List (String × Nat)} (h : selectors.Perm others) :
    (findingsOf v selectors).SameCounts (findingsOf v others) where
  severities s := (IsCount.severity s).perm v h
  elements := (IsCount.total_view _).perm v h
  microformats := (IsCount.total_view _).perm v h
  microformats2 := ((IsCount.total_view _).add (IsCount.total_view _)).perm v h
  shortStarts := ((IsCount.total_view _).add (IsCount.total_view _)).perm v h
  buckets :=
    { repairs := fun kind line => (IsCount.bucket (·.repairs kind line) rfl fun _ _ => rfl).perm v h
      failures := fun line => (IsCount.bucket (·.failures line) rfl fun _ _ => rfl).perm v h
      elements := fun name => (IsCount.bucket (·.elements name) rfl fun _ _ => rfl).perm v h
      microformats := fun name => (IsCount.bucket (·.microformats name) rfl fun _ _ => rfl).perm v h
      wellKnown := fun name => (IsCount.bucket (·.wellKnown name) rfl fun _ _ => rfl).perm v h
      wellKnownFormat := fun name => (IsCount.bucket (·.wellKnownFormat name) rfl fun _ _ => rfl).perm v h
      oneLetter := fun letter => (IsCount.bucket (·.oneLetter letter) rfl fun _ _ => rfl).perm v h
      twoLetters := fun letters => (IsCount.bucket (·.twoLetters letters) rfl fun _ _ => rfl).perm v h }

/-- Inspections do not influence one another. After a run over two lists of selectors each bucket holds what a run over
the first list puts there, followed by what a run over the second does; each inspection comes to what it comes to where
nothing is filed yet, and all that is counted is the same for the same selectors in any order. -/
theorem inspectAll_append (v : Vocabulary) (scanPath : String) (first second : List (String × Nat)) :
    (Register.inspectAll v scanPath {} (first ++ second)).1 =
        (Register.inspectAll v scanPath {} first).1 ++ (Register.inspectAll v scanPath {} second).1 ∧
      (Register.inspectAll v scanPath {} (first ++ second)).2 =
        (first ++ second).map (fun s => Register.result v scanPath s.1 s.2) ∧
      (Register.inspectAll v scanPath {} (first ++ second)).1 = .ofFindings (findingsOf v (first ++ second)) ∧
      ∀ others, (first ++ second).Perm others →
        (findingsOf v (first ++ second)).SameCounts (findingsOf v others) ∧
          (Register.inspectAll v scanPath {} (first ++ second)).1.SameSizes (Register.inspectAll v scanPath {} others).1 := by
  have filed : ∀ selectors, (Register.inspectAll v scanPath {} selectors).1 = .ofFindings (findingsOf v selectors) := by
    intro selectors
    rw [Register.inspectAll_eq, Register.empty_append]
  have both : findingsOf v (first ++ second) = findingsOf v first ++ findingsOf v second := by
    induction first with
    | nil => exact (Findings.empty_append _).symm
    | cons s rest ih =>
        rw [List.cons_append, findingsOf, findingsOf, ih, Findings.append_assoc]
  refine ⟨?_, ?_, filed _, fun others same => ?_⟩
  · rw [filed, filed, filed, both, Register.ofFindings_append]
  · rw [Register.inspectAll_eq]
  · rw [filed, filed]
    exact ⟨sameCounts_of_perm v same, (sameCounts_of_perm v same).buckets⟩

/-- A run that goes on behind a selector that stops its inspection, and files a repair and a use on one line. -/
theorem inspectAll_append_stopped :
    (Register.inspectAll ⟨[], [], []⟩ "x.css" {} [("p:after", 1), ("&", 2)]).2 =
        [.ok (), .error (.unmodeled "x.css" 2 .nesting)] ∧
      (Register.inspectAll ⟨[], [], []⟩ "x.css" {} ([("p:after", 1), ("&", 2)] ++ [(".x-y", 1)])).1 =
        (Register.inspectAll ⟨[], [], []⟩ "x.css" {} [("p:after", 1), ("&", 2)]).1 ++
          (Register.inspectAll ⟨[], [], []⟩ "x.css" {} [(".x-y", 1)]).1 ∧
      (findingsOf ⟨[], [], []⟩ ([("p:after", 1), ("&", 2)] ++ [(".x-y", 1)])).SameCounts
        (findingsOf ⟨[], [], []⟩ ([(".x-y", 1)] ++ [("p:after", 1), ("&", 2)])) := by
  have apart := inspectAll_append ⟨[], [], []⟩ "x.css" [("p:after", 1), ("&", 2)] [(".x-y", 1)]
  have repaired : (inspect ⟨[], [], []⟩ 1 "p:after").stopped = none := by
    have trimmed : Text.trim "p:after".toList = "p:after".toList := by decide
    have rejected : Selector.selectors 0 "p:after".toList = .error ⟨.oneColon "after", 7⟩ := by cbv
    have mended : (Selector.repair "p:after".toList).count ≠ 0 ∧
        (Selector.repair "p:after".toList).text = "p::after".toList := by decide +kernel
    have accepted : Selector.selectors 0 "p::after".toList = .ok [⟨[.element "p", .pseudoElement .after], []⟩] := by cbv
    rw [inspect, trimmed, show repairLimit = 9 + 1 from rfl, inspectFrom_again ⟨by decide, rejected⟩ mended.1, mended.2,
      inspectFrom.eq_def, if_neg (by decide), accepted]
    rfl
  have stopped : (inspect ⟨[], [], []⟩ 2 "&").stopped = some .nesting := by
    have trimmed : Text.trim "&".toList = "&".toList := by decide
    have accepted : Selector.selectors 0 "&".toList = .ok [⟨[.nesting], []⟩] := by cbv
    rw [inspect, trimmed, inspectFrom.eq_def, if_neg (by decide), accepted]
    rfl
  refine ⟨?_, apart.1, (apart.2.2.2 _ List.perm_append_comm).1⟩
  rw [Register.inspectAll_eq]
  simp only [List.map_cons, List.map_nil, Register.result, Register.inspect_stopped, repaired, stopped]

end StyleAudit
