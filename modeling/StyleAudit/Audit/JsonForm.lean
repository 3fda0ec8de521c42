import StyleAudit.Audit.RunReport
import StyleAudit.Json.Value
/-!
The JSON form of a run: every view of the reports, for other programs to read.
-/
namespace StyleAudit

open Json (Value)

def Replacement.json (r : Replacement) : Value :=
  .object [("before", .string r.before), ("match", .string r.matched), ("after", .string r.after)]

def Failure.json (f : Failure) : Value :=
  .object [("before", .string f.before), ("after", .string f.after), ("exception", .string f.reason)]

namespace Findings

def kindsJson (f : Findings) (s : Severity) : Value :=
  .object ((f.byKind s).map fun (kind, lines) => (kind.name, Value.byLine (Value.listOf Replacement.json) lines))

/-- What was found about the writing of selectors. -/
def writingJson (f : Findings) : Value :=
  .object [("notices", f.kindsJson .notice), ("warnings", f.kindsJson .warning),
    ("errors", Value.byLine (Value.listOf Failure.json) f.failuresByLine)]

/-- The lines of each name. -/
def linesJson (names : List (String × List Nat)) : Value := Value.byName (Value.listOf Value.count) names

def hitJson (hit : Nat × String) : Value :=
  .object [("line_number", .count hit.1), ("token", .string hit.2)]

/-- What was found about the names in selectors. -/
def namesJson (f : Findings) : Value :=
  .object [("posh", linesJson f.elements), ("microformats", linesJson f.microformats),
    ("microformats2", .object [("well-known", linesJson f.wellKnown),
      ("well-known-format", linesJson f.wellKnownFormat),
      ("prefix-format", .object [("single-letter", Value.byName (Value.listOf hitJson) f.oneLetter),
        ("double-letter", Value.byName (Value.listOf hitJson) f.twoLetters)])])]

end Findings

def Sizes.json (s : Sizes) : Value :=
  .object [("size", .count s.written), ("minified_size", .count s.compact), ("whitespace", .count s.saved),
    ("whitespace_percent", .string s.percent)]

def issueJson (i : Css.Issue) : Value := .object [("message", .string i.message), ("line", .count i.line)]

/-- The members of the object for an audited style sheet. -/
def SheetAudit.jsonMembers (a : SheetAudit) : List (String × Value) :=
  [("mime_type", .string styleSheetType), ("scan_path", .string a.scanPath), ("stats", a.sizes.json),
    ("selectors_by_line", Value.byName (Value.byLine Value.strings) a.selectorsByLine),
    ("imports_by_line", Value.byLine Value.string a.importsByLine),
    ("fonts_by_line", Value.byLine Value.strings a.fontsByLine),
    ("unsupported_at_rules", Value.byLine Value.strings a.uncategorizedByLine),
    ("parse_issues", Value.listOf issueJson a.issues),
    ("syntax", a.findings.writingJson), ("semantics", a.findings.namesJson)]

def FileReport.json : FileReport → Value
  | .sheet audit => .object (("status", .string "css") :: audit.jsonMembers)
  | .failed filename message =>
    .object [("status", .string "failed"), ("filename", .string filename), ("message", .string message)]
  | .unsupported filename => .object [("status", .string "unsupported"), ("filename", .string filename)]

def RunReport.json (r : RunReport) : Value :=
  .object [("status", .object [("directories", .count r.directories), ("files", .count r.files)]),
    ("details", Value.byName (Value.byName FileReport.json) r.details)]

end StyleAudit
