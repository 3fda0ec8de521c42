import Mathlib.Data.List.Nodup
import Mathlib.Data.List.Perm.Basic
import StyleAudit.Proofs.ReportReading
import StyleAudit.Report.Text
/-!
Findings in a report. The section about a style sheet has a part for each topic. A part shows each finding of its topic
once and nothing else, and lists as many texts as its count says.
-/
namespace StyleAudit

section
variable {α β : Type}

/-- What is sorted by keys is what has one of the keys. -/
theorem filter_keys_perm [DecidableEq β] (key : α → β) {keys : List β} (distinct : keys.Nodup) (l : List α) :
    (keys.flatMap fun k => l.filter (key · = k)).Perm (l.filter (key · ∈ keys)) := by
  induction keys with
  | nil => simp
  | cons k rest ih =>
      obtain ⟨new, distinct⟩ := List.nodup_cons.mp distinct
      have here : (l.filter (key · ∈ k :: rest)).filter (key · = k) = l.filter (key · = k) := by
        rw [List.filter_filter]
        exact List.filter_congr fun a _ => by simp +contextual
      have behind : (l.filter (key · ∈ k :: rest)).filter (fun a => !decide (key a = k)) =
          l.filter (key · ∈ rest) := by
        rw [List.filter_filter]
        refine List.filter_congr fun a _ => ?_
        by_cases same : key a = k
        · simp [same, new]
        · simp [same]
      have both := List.filter_append_perm (fun a => decide (key a = k)) (l.filter (key · ∈ k :: rest))
      rw [here, behind] at both
      exact ((ih distinct).append_left _).trans both

end

namespace Report

/-! Topics. -/

/-- What the parts of a section are about. -/
inductive Topic where
  | notices
  | warnings
  | errors
  | elements
  | microformats
  | microformats2
  deriving DecidableEq

namespace Topic

def all : List Topic := [.notices, .warnings, .errors, .elements, .microformats, .microformats2]

def label : Topic → String
  | .notices => "Notices"
  | .warnings => "Warnings"
  | .errors => "Errors"
  | .elements => "POSH"
  | .microformats => "Microformats"
  | .microformats2 => "Microformats2"

def ofSeverity : Severity → Topic
  | .notice => .notices
  | .warning => .warnings
  | .error => .errors

def ofUse : Use → Topic
  | .element _ => .elements
  | .microformat _ => .microformats
  | .wellKnown _ | .wellKnownFormat _ | .oneLetter .. | .twoLetters .. => .microformats2

/-- The number of a topic among totals. -/
def number (t : Totals) : Topic → Nat
  | .notices => t.notices
  | .warnings => t.warnings
  | .errors => t.errors
  | .elements => t.elements
  | .microformats => t.microformats
  | .microformats2 => t.microformats2

end Topic

/-! What there is to show of findings. -/

/-- A repair is listed below the description of its kind, at the line of its selector. -/
def repairItems (r : Repair) : List Item :=
  [.listed ("      " ++ r.kind.description) (lineHead r.line) r.replacement.before]

/-- What failures are listed below. -/
def failureRemark : String := "      " ++ "Errors that can't be cleaned of unrecognized tokens are ignored."

/-- A name that is used on a line. -/
def usedAt (remark written : String) (line : Nat) : List Item :=
  [.listed ("      " ++ remark) ("      - " ++ written ++ " ") ("@ line " ++ toString line)]

/-- What the class names are shown below that begin with the same short word. -/
def startRemark (start : String) (n : Nat) : String := "        - " ++ start ++ "-* (" ++ toString n ++ " token(s))"

/-! What is picked out of the uses, each with the name that it is shown under. -/

def pickOneLetter (line : Nat) : Use → Option (String × Nat × String)
  | .oneLetter letter token => some (letter, line, token)
  | _ => none

def pickTwoLetters (line : Nat) : Use → Option (String × Nat × String)
  | .twoLetters letters token => some (letters, line, token)
  | _ => none

def picked {α : Type} (pick : Nat → Use → Option (String × α)) (f : Findings) : List (String × α) :=
  f.uses.filterMap fun (line, use) => pick line use

def elementText : String := "The website should use Plain Old Simple HTML(5)"

def microformatText : String := "The website should not use microformats class names for styling"

def wellKnownText : String := "The well-known microformats2 class names should not be used for styling"

def wellKnownFormatText : String :=
  "The webapp should not use for styling, class names that intersect the microformats2 class name prefix scheme (h-*, p-*, e-*, u-*, dt-*)"

/-- How a use is shown. -/
def useItems (f : Findings) (line : Nat) : Use → List Item
  | .element name => usedAt elementText (writtenElement name) line
  | .microformat name => usedAt microformatText (writtenClass name) line
  | .wellKnown name => usedAt wellKnownText (writtenClass name) line
  | .wellKnownFormat name => usedAt wellKnownFormatText (writtenClass name) line
  | .oneLetter letter token => [.hit (startRemark letter (entriesOf letter (picked pickOneLetter f)).length) token line]
  | .twoLetters letters token =>
    [.hit (startRemark letters (entriesOf letters (picked pickTwoLetters f)).length) token line]

/-- Everything that was found, each with its topic and with how it is shown. -/
def records (f : Findings) : List (Topic × List Item) :=
  f.repairs.map (fun r => (.ofSeverity r.kind.severity, repairItems r)) ++
    f.failures.map (fun (line, failure) => (.errors, failureItems failureRemark (lineHead line) failure)) ++
    f.uses.map fun (line, use) => (.ofUse use, useItems f line use)

/-- The lines show each of the findings once, in some order, and nothing else. -/
def ShowsEach (findings : List (List Item)) (ls : List Line) : Prop :=
  ∃ ordered : List (List Item), ordered.Perm findings ∧ Shows ls ordered.flatten

namespace ShowsEach

theorem silent {ls : List Line} (h : Shows ls []) : ShowsEach [] ls := ⟨[], .nil, h⟩

theorem perm {findings others : List (List Item)} {ls : List Line} (h : ShowsEach findings ls)
    (same : findings.Perm others) : ShowsEach others ls := by
  obtain ⟨ordered, perm, shown⟩ := h
  exact ⟨ordered, perm.trans same, shown⟩

theorem append {findings more : List (List Item)} {ls ms : List Line} (h : ShowsEach findings ls)
    (h' : ShowsEach more ms) : ShowsEach (findings ++ more) (ls ++ ms) := by
  obtain ⟨ordered, perm, shown⟩ := h
  obtain ⟨ordered', perm', shown'⟩ := h'
  refine ⟨ordered ++ ordered', perm.append perm', ?_⟩
  rw [List.flatten_append]
  exact shown.append shown'

theorem empty {findings : List (List Item)} {ls : List Line} (h : ShowsEach findings ls) :
    ShowsEach findings (ls ++ [.empty]) := by
  have whole := h.append (silent Shows.empty)
  rwa [List.append_nil] at whole

theorem flatMap {α : Type} {g : α → List (List Item)} {f : α → List Line} {as : List α}
    (h : ∀ a ∈ as, ShowsEach (g a) (f a)) : ShowsEach (as.flatMap g) (as.flatMap f) := by
  induction as with
  | nil => exact silent .nil
  | cons a rest ih =>
      obtain ⟨first, others⟩ := List.forall_mem_cons.mp h
      exact first.append (ih others)

/-- A paragraph, and below it what was recorded, by buckets. -/
theorem paragraph {κ α : Type} [DecidableEq κ] [LT κ] [DecidableLT κ] {text : String}
    (print : κ × List α → List Line) (item : κ × α → List Item) (h : ∀ key entries,
      ShowsUnder ("      " ++ text) (print (key, entries)) (entries.flatMap fun e => item (key, e)))
    (record : List (κ × α)) : ShowsEach (record.map item) (Report.paragraph text ++ (grouped record).flatMap print) :=
  ⟨_, (ungrouped_grouped record).map item, (List.flatMap_def ▸ (ShowsUnder.buckets h (grouped record)).paragraph :)⟩

end ShowsEach

/-! Repairs. -/

/-- The repairs of a severity, sorted by the kinds of it. -/
theorem repairs_of_severity (f : Findings) (s : Severity) :
    ((RepairKind.ofSeverity s).flatMap fun k => f.repairs.filter (·.kind = k)).Perm
      (f.repairs.filter (.ofSeverity ·.kind.severity = Topic.ofSeverity s)) := by
  have distinct : (RepairKind.ofSeverity s).Nodup := List.Nodup.filter _ (by decide)
  refine (filter_keys_perm (·.kind) distinct f.repairs).trans (.of_eq (List.filter_congr fun r _ => ?_))
  rw [decide_eq_decide, RepairKind.ofSeverity, List.mem_filter, and_iff_right (RepairKind.mem_all _)]
  cases r.kind.severity <;> cases s <;> decide

/-- How many entries a listing by kinds and lines holds. -/
def kindTotal (kinds : List (RepairKind × List (Nat × List Replacement))) : Nat :=
  (kinds.map fun b => Findings.total b.2).foldr (· + ·) 0

/-- How many entries the listing of a severity holds. -/
def listedCount (f : Findings) : Severity → Nat
  | .error => Findings.total f.failuresByLine
  | s => kindTotal (f.byKind s)

theorem kindTotal_byKind (f : Findings) (s : Severity) : kindTotal (f.byKind s) =
    (f.repairs.filter (.ofSeverity ·.kind.severity = Topic.ofSeverity s)).length := by
  rw [← (repairs_of_severity f s).length_eq, Findings.byKind]
  induction RepairKind.ofSeverity s with
  | nil => rfl
  | cons k rest ih =>
      have size : Findings.total (f.replacements k) = (f.repairs.filter (·.kind = k)).length := by
        rw [Findings.replacements, total_grouped, List.length_map]
      rw [List.map_cons, List.filter_cons, List.flatMap_cons, List.length_append, ← size, ← ih]
      split
      · rfl
      · next none =>
          -- a kind that does not occur is left out of the listing
          rw [Bool.not_eq_true', Bool.not_eq_false, List.isEmpty_iff] at none
          rw [show f.replacements k = [] from none]
          exact (Nat.zero_add _).symm

/-- The number of findings of a severity is that of the entries of its listing. -/
theorem count_eq_listedCount (f : Findings) (s : Severity) : f.count s = listedCount f s := by
  cases s with
  | error => exact (total_grouped f.failures).symm
  | _ =>
      refine Eq.trans ?_ (kindTotal_byKind f _).symm
      refine congrArg List.length (List.filter_congr fun r _ => ?_)
      cases r.kind.severity <;> decide

/-! Failures. -/

def Topic.style : Topic → Style
  | .notices => .notice
  | .warnings => .warning
  | .errors => .error
  | .elements | .microformats | .microformats2 => .names

end Report
end StyleAudit
