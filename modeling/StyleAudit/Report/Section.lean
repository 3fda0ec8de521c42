import StyleAudit.Findings.Record
import StyleAudit.Report.Line
/-!
The sections of a report that tell what was found in a style sheet. Each begins with a count and lists as many entries as
the count says.
-/
namespace StyleAudit.Report

def severityStyle : Severity → Style
  | .notice => .notice
  | .warning => .warning
  | .error => .error

def severityLabel : Severity → String
  | .notice => "Notices"
  | .warning => "Warnings"
  | .error => "Errors"

def severityCount (f : Findings) (s : Severity) : Line :=
  .count (severityLabel s) (severityStyle s) (f.count s)

/-- The head of what is listed for a line of a style sheet. -/
def lineHead (line : Nat) : String := "      - @ line " ++ toString line ++ ": "

/-- The selectors that one kind of repair was made to. -/
def kindLines (kind : RepairKind) (lines : List (Nat × List Replacement)) : List Line :=
  paragraph kind.description ++
    lines.flatMap (fun (line, replacements) => listing (lineHead line) (replacements.map (·.before))) ++ [.empty]

def repairLines (f : Findings) (s : Severity) : List Line :=
  severityCount f s :: (f.byKind s).flatMap fun (kind, lines) => kindLines kind lines

/-- A selector that could not be mended, and below it the reason. -/
def failureEntry (head : String) (isFirst : Bool) (f : Failure) : List Line :=
  [.entry head isFirst (f.before ++ "\t(cleanup)=> " ++ f.after), .setOff "" .error f.reason ""]

def failureListing (head : String) : List Failure → List Line
  | [] => []
  | f :: rest => failureEntry head true f ++ rest.flatMap (failureEntry head false)

def failureLines (f : Findings) : List Line :=
  severityCount f .error ::
    if f.count .error = 0 then []
    else paragraph "Errors that can't be cleaned of unrecognized tokens are ignored." ++
      f.failuresByLine.flatMap (fun (line, failures) => failureListing (lineHead line) failures) ++ [.empty]

/-- The lines that names are used on. -/
def usageLines (written : String → String) (names : List (String × List Nat)) : List Line :=
  names.flatMap fun (name, lines) =>
    listing ("      - " ++ written name ++ " ") (lines.map fun line => "@ line " ++ toString line)

def writtenElement (name : String) : String := "<" ++ name ++ ">"

def writtenClass (name : String) : String := "." ++ name

/-- Names of one vocabulary: their count, what is to be said about them, and where they are used. -/
def vocabularyLines (label remark : String) (written : String → String) (n : Nat)
    (names : List (String × List Nat)) : List Line :=
  .count label .names n ::
    if n = 0 then [] else paragraph remark ++ usageLines written names ++ [.empty]

/-- What is to be said about some names, if there are any, and where they are used. -/
def remarkLines (remark : String) (names : List (String × List Nat)) : List Line :=
  if names.isEmpty then [] else paragraph remark ++ usageLines writtenClass names

/-- The class names that begin with short words, by the words. -/
def shortStartLines (title : String) (starts : List (String × List (Nat × String))) : List Line :=
  if starts.isEmpty then []
  else .plain ("      - " ++ title ++ ": ") :: starts.flatMap fun (start, hits) =>
    .plain ("        - " ++ start ++ "-* (" ++ toString hits.length ++ " token(s))") ::
      hits.map fun (line, token) => .hit token line

/-- The class names in the manner of microformats2, well known or not. -/
def microformat2Details (f : Findings) : List Line :=
  remarkLines "The well-known microformats2 class names should not be used for styling" f.wellKnown ++
    remarkLines "The webapp should not use for styling, class names that intersect the microformats2 class name prefix scheme (h-*, p-*, e-*, u-*, dt-*)"
      f.wellKnownFormat ++
    (if f.oneLetter.isEmpty && f.twoLetters.isEmpty then []
      else paragraph "An active area of research for the microformats community is to gauge the usage of single and double letter prefixes" ++
        shortStartLines "Single Letter Prefixes" f.oneLetter ++
        shortStartLines "Double Letter Prefixes" f.twoLetters) ++
    [.empty]

def microformat2Lines (f : Findings) : List Line :=
  .count "Microformats2" .names f.microformat2Count ::
    if f.microformat2Count = 0 ∧ f.shortStartCount = 0 then [] else microformat2Details f

def writingLines (f : Findings) : List Line :=
  .plain " - Syntax:" :: repairLines f .notice ++ repairLines f .warning ++ failureLines f

/-- What the names in selectors stand for. -/
def nameLines (f : Findings) : List Line :=
  .plain " - Semantics:" ::
    vocabularyLines "POSH" "The website should use Plain Old Simple HTML(5)" writtenElement f.elementCount f.elements ++
    vocabularyLines "Microformats" "The website should not use microformats class names for styling" writtenClass
      f.microformatCount f.microformats ++
    microformat2Lines f

end StyleAudit.Report
