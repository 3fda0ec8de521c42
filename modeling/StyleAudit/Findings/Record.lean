import StyleAudit.Findings.Kind
import StyleAudit.Findings.Grouping
import StyleAudit.Vocabulary.Use
/-!
Findings: what was found in selectors, in the order it was found. Every count and every listing is a view of this record,
so that findings of one selector never touch those of another.
-/
namespace StyleAudit

structure Repair where
  line : Nat
  kind : RepairKind
  replacement : Replacement
  deriving DecidableEq, Repr

/-- What was found, each with the line of its selector. -/
@[ext] structure Findings where
  repairs : List Repair := []
  failures : List (Nat × Failure) := []
  uses : List (Nat × Use) := []
  deriving DecidableEq, Repr

namespace Findings

instance : Append Findings :=
  ⟨fun f g => ⟨f.repairs ++ g.repairs, f.failures ++ g.failures, f.uses ++ g.uses⟩⟩

@[simp] theorem repairs_append (f g : Findings) : (f ++ g).repairs = f.repairs ++ g.repairs := rfl
@[simp] theorem failures_append (f g : Findings) : (f ++ g).failures = f.failures ++ g.failures := rfl
@[simp] theorem uses_append (f g : Findings) : (f ++ g).uses = f.uses ++ g.uses := rfl

@[simp] theorem append_empty (f : Findings) : f ++ ({} : Findings) = f := by
  ext1 <;> simp

@[simp] theorem empty_append (f : Findings) : ({} : Findings) ++ f = f := rfl

theorem append_assoc (f g h : Findings) : f ++ g ++ h = f ++ (g ++ h) := by
  ext1 <;> simp

def repair (line : Nat) (kind : RepairKind) (replacement : Replacement) : Findings :=
  { repairs := [⟨line, kind, replacement⟩] }

def failure (line : Nat) (f : Failure) : Findings := { failures := [(line, f)] }

def ofUses (line : Nat) (uses : List Use) : Findings := { uses := uses.map (line, ·) }

/-! Selectors: how they are written. -/

/-- The number of findings of a severity. Errors are selectors that could not be mended. -/
def count (f : Findings) : Severity → Nat
  | .error => f.failures.length
  | s => (f.repairs.filter (·.kind.severity = s)).length

def isWellWritten (f : Findings) : Bool := f.repairs.isEmpty && f.failures.isEmpty

def replacements (f : Findings) (kind : RepairKind) : List (Nat × List Replacement) :=
  grouped ((f.repairs.filter (·.kind = kind)).map fun r => (r.line, r.replacement))

/-- The kinds of a severity that occur, in the order of reports, with their replacements by line. -/
def byKind (f : Findings) (s : Severity) : List (RepairKind × List (Nat × List Replacement)) :=
  ((RepairKind.ofSeverity s).map fun k => (k, f.replacements k)).filter (!·.2.isEmpty)

def failuresByLine (f : Findings) : List (Nat × List Failure) := grouped f.failures

/-! Vocabularies: what the names stand for. -/

/-- The uses that a view picks out, by the name it gives them. -/
def view {α : Type} (f : Findings) (pick : Nat → Use → Option (String × α)) : List (String × List α) :=
  grouped (f.uses.filterMap fun (line, use) => pick line use)

/-- The elements that are not Plain Old Simple HTML, with the lines they are used on. -/
def elements (f : Findings) : List (String × List Nat) :=
  f.view fun line use => match use with | .element name => some (name, line) | _ => none

def microformats (f : Findings) : List (String × List Nat) :=
  f.view fun line use => match use with | .microformat name => some (name, line) | _ => none

def wellKnown (f : Findings) : List (String × List Nat) :=
  f.view fun line use => match use with | .wellKnown name => some (name, line) | _ => none

def wellKnownFormat (f : Findings) : List (String × List Nat) :=
  f.view fun line use => match use with | .wellKnownFormat name => some (name, line) | _ => none

def oneLetter (f : Findings) : List (String × List (Nat × String)) :=
  f.view fun line use => match use with | .oneLetter letter token => some (letter, line, token) | _ => none

def twoLetters (f : Findings) : List (String × List (Nat × String)) :=
  f.view fun line use => match use with | .twoLetters letters token => some (letters, line, token) | _ => none

/-- How many entries the buckets of a view hold. -/
def total {κ α : Type} (buckets : List (κ × List α)) : Nat := (buckets.map (·.2.length)).foldr (· + ·) 0

def elementCount (f : Findings) : Nat := total f.elements

def microformatCount (f : Findings) : Nat := total f.microformats

/-- The uses of microformats2. Class names that only begin with a short word do not count. -/
def microformat2Count (f : Findings) : Nat := total f.wellKnown + total f.wellKnownFormat

def shortStartCount (f : Findings) : Nat := total f.oneLetter + total f.twoLetters

end Findings
end StyleAudit
