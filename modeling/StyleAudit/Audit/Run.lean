import StyleAudit.Audit.RunReport
import StyleAudit.Audit.Survey
/-!
A run: every pick of a survey is audited if it is a style sheet, and reported in any case. One that cannot be audited
does not end the run.
-/
namespace StyleAudit

namespace Pick

def key (p : Pick) : FileKey := ⟨p.mediaType, p.scanPath⟩

/-- What becomes of a pick. -/
def report (v : Vocabulary) (p : Pick) : FileReport :=
  if p.mediaType = styleSheetType then
    match SheetAudit.ofContent v p.scanPath p.content with
    | .ok audit => .sheet audit
    | .error e => .failed p.filename e.message
  else .unsupported p.filename

end Pick

namespace Survey

def run (v : Vocabulary) (s : Survey) : RunReport :=
  ⟨s.directories, s.picks.length, s.picks.map fun p => (p.key, p.report v)⟩

/-- The paths that are shown while the run goes on, one for each pick in turn. -/
def marks (s : Survey) : List String := s.picks.map (·.scanPath)

end Survey
end StyleAudit
