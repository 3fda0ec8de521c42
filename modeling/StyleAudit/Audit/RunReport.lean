import StyleAudit.Audit.Sheet
import StyleAudit.Audit.MediaType
/-!
What became of each file of a run, and the totals over all style sheets.
-/
namespace StyleAudit

inductive FileReport where
  | sheet (audit : SheetAudit)
  | failed (filename message : String)
  | unsupported (filename : String)
  deriving DecidableEq, Repr

namespace FileReport

def sheet? : FileReport → Option SheetAudit
  | .sheet audit => some audit
  | _ => none

def failure? : FileReport → Option String
  | .failed _ message => some message
  | _ => none

end FileReport

/-- Where a report is filed. -/
structure FileKey where
  mediaType : String
  scanPath : String
  deriving DecidableEq, Repr

/-- The reports of a run, in the order they were made, with the numbers of directories and files that were found. A file
that is reported again loses its earlier report. -/
structure RunReport where
  directories : Nat := 0
  files : Nat := 0
  record : List (FileKey × FileReport) := []
  deriving DecidableEq, Repr

/-- The sums over all audited style sheets. -/
structure Totals where
  notices : Nat := 0
  warnings : Nat := 0
  errors : Nat := 0
  elements : Nat := 0
  microformats : Nat := 0
  microformats2 : Nat := 0
  deriving DecidableEq, Repr

namespace Totals

instance : Add Totals :=
  ⟨fun s t => ⟨s.notices + t.notices, s.warnings + t.warnings, s.errors + t.errors, s.elements + t.elements,
    s.microformats + t.microformats, s.microformats2 + t.microformats2⟩⟩

/-- The counts of what was found in one style sheet. -/
def ofFindings (f : Findings) : Totals :=
  ⟨f.count .notice, f.count .warning, f.count .error, f.elementCount, f.microformatCount, f.microformat2Count⟩

end Totals

namespace RunReport

def add (r : RunReport) (key : FileKey) (report : FileReport) : RunReport :=
  { r with record := r.record ++ [(key, report)] }

def addSheet (r : RunReport) (audit : SheetAudit) : RunReport :=
  r.add ⟨styleSheetType, audit.scanPath⟩ (.sheet audit)

/-- The reports of each media type, by scan path. -/
def details (r : RunReport) : List (String × List (String × FileReport)) :=
  (grouped (r.record.map fun (key, report) => (key.mediaType, key.scanPath, report))).map
    fun (mediaType, reports) => (mediaType, latest reports)

def reportCount (r : RunReport) : Nat := (r.details.map (·.2.length)).foldr (· + ·) 0

def reportsOf (r : RunReport) (mediaType : String) : List (String × FileReport) :=
  latest (entriesOf mediaType (r.record.map fun (key, report) => (key.mediaType, key.scanPath, report)))

def sheets (r : RunReport) : List SheetAudit := (r.reportsOf styleSheetType).filterMap (·.2.sheet?)

/-- The scan paths and messages of what failed, by media type and scan path. -/
def failures (r : RunReport) : List (String × String) :=
  r.details.flatMap fun (_, reports) => reports.filterMap fun (scanPath, report) =>
    report.failure?.map (scanPath, ·)

def totals (r : RunReport) : Totals :=
  r.sheets.foldl (fun t audit => t + .ofFindings audit.findings) {}

end RunReport
end StyleAudit
