import StyleAudit.Audit.RunReport
import StyleAudit.Report.Section
/-!
The report of a run for people to read: how much was found, the style sheets one by one, what failed, and a summary.
-/
namespace StyleAudit.Report

/-- A count and its noun. -/
def counted (n : Nat) (one many : String) : String := toString n ++ " " ++ if n = 1 then one else many

def title (style : Style) (text : String) : Line := .setOff "" style ("===== " ++ text ++ " =====") ""

/-- The upper or lower side of a box. -/
def side (width : Nat) : Line := .plain ("+" ++ String.ofList (List.replicate width '-') ++ "+")

def sheetLines (a : SheetAudit) : List Line :=
  let side := side (a.scanPath.length + 4)
  [side, .setOff "|  " .heading a.scanPath "  |", side, .plain (" - Selectors: " ++ toString a.selectorCount)] ++
    writingLines a.findings ++ nameLines a.findings ++ [.empty]

/-- The files of one media type. Of style sheets the audited ones are shown, of other files the paths. -/
def typeLines (mediaType : String) (reports : List (String × FileReport)) : List Line :=
  .empty :: title .heading mediaType ::
    if mediaType = styleSheetType then (reports.filterMap (·.2.sheet?)).flatMap sheetLines
    else reports.map fun (scanPath, _) => .plain (" " ++ scanPath)

/-- What could not be audited, and why. -/
def failedLines : List (String × String) → List Line
  | [] => []
  | failures =>
    .empty :: title .error "failed" ::
      failures.flatMap (fun (scanPath, message) => [.plain (" " ++ scanPath), .plain ("   " ++ message)]) ++ [.empty]

/-- The inner width of the summary. -/
def summaryWidth : Nat := 27

/-- A text with blanks behind it up to a width. -/
def padded (width : Nat) (text : String) : String := text ++ blanks (width - text.length)

/-- A text with blanks around it up to a width; the odd blank stands behind it. -/
def centered (width : Nat) (text : String) : String :=
  let free := width - text.length
  blanks (free / 2) ++ text ++ blanks (free - free / 2)

def summaryHeading (text : String) : Line := .plain ("|  " ++ padded (summaryWidth - 2) text ++ "|")

def summaryRow (label : String) (n : Nat) : Line :=
  .plain ("|  " ++ label ++ "  " ++ padded (summaryWidth - 6 - label.length) (toString n) ++ "  |")

def summaryLines (t : Totals) : List Line :=
  [side summaryWidth, .setOff "|" .heading (centered summaryWidth "All CSS Files Summary") "|", side summaryWidth,
    summaryHeading "Syntax", summaryRow "- notices:" t.notices, summaryRow "- warnings:" t.warnings,
    summaryRow "- errors:" t.errors, .plain ("|" ++ blanks summaryWidth ++ "|"), summaryHeading "Semantics",
    summaryRow "- POSH:" t.elements, summaryRow "- Microformats:" t.microformats,
    summaryRow "- Microformats2:" t.microformats2, side summaryWidth]

/-- The lines of the whole report. Without `everyType`, files other than style sheets are left out. -/
def lines (everyType : Bool) (r : RunReport) : List Line :=
  [.plain (counted r.directories "directory" "directories"), .plain (counted r.files "file" "files")] ++
    (r.details.filter fun (mediaType, _) => everyType || mediaType = styleSheetType).flatMap
      (fun (mediaType, reports) => typeLines mediaType reports) ++
    failedLines r.failures ++ summaryLines r.totals

def text (everyType color : Bool) (r : RunReport) : String := render color (lines everyType r)

end StyleAudit.Report
