import StyleAudit.Audit.JsonForm
import StyleAudit.Audit.Run
import StyleAudit.CommandLine.Options
import StyleAudit.CommandLine.Tables
import StyleAudit.Json.Printer
import StyleAudit.Report.Progress
import StyleAudit.Report.Text
import StyleAudit.Vocabulary.Bundled
/-!
What a call of the program does. It asks for the files that it needs, audits them one by one, and writes. A call that goes
through a tree of files and keeps what it writes gives its outcome as a function of its arguments.
-/
namespace StyleAudit.CommandLine

open Files

structure Outcome where
  exit : Nat
  output : String := ""
  errors : String := ""
  deriving DecidableEq, Repr

def versionText : String := "triage 0.1.0\n"

def usage : String := "Usage: triage [OPTIONS] <SOURCE>\n"

def helpText : String :=
  "Find faults and uses of vocabularies in the selectors of style sheets.\n\n" ++ usage ++
    "\nArguments:\n  <SOURCE>  Directory or file to audit\n\nOptions:\n" ++
    "  -a, --show-all-files    Show files of every media type, not only style sheets\n" ++
    "  -p, --show-progress     Show which file is audited\n" ++
    "      --json              Print JSON in place of the report\n" ++
    "      --vocabulary <DIR>  Take the vocabulary tables from a directory\n" ++
    "      --no-color          Print the report without colors\n" ++
    "  -d, --debug             Print more about what is done\n" ++
    "  -h, --help              Print help\n" ++
    "  -V, --version           Print the version\n"

/-- The outcome of a call whose arguments ask for no run. -/
def Stop.outcome : Stop → Outcome
  | .help => ⟨0, helpText, ""⟩
  | .version => ⟨0, versionText, ""⟩
  | .refused argument => ⟨2, "", "error: cannot accept the argument '" ++ argument ++ "'\n\n" ++ usage⟩
  | .noSource => ⟨2, "", "error: a source is required\n\n" ++ usage⟩

/-- What a run works with. -/
structure Job where
  options : Options
  vocabulary : Vocabulary
  survey : Survey

/-- The job that options ask for, with the source they name and with what reading a vocabulary table gives, or the
outcome if there is nothing to run. -/
def prepare (o : Options) (source : Option Source) (table : VocabularyTable → Content) : Except Outcome Job :=
  match source with
  | none => .error ⟨1, "", "triage: no such file or directory\n"⟩
  | some source =>
    let survey := Survey.ofSource o.source source
    match o.vocabulary with
    | none => .ok ⟨o, .bundled, survey⟩
    | some directory =>
      match tablesVocabulary directory (table .elements) (table .classNames) with
      | .ok v => .ok ⟨o, v, survey⟩
      | .error e => .error ⟨1, "", tableFailure directory e⟩

/-- The width of a terminal that says nothing of its width. -/
def usualWidth : Nat := 80

/-- The width of a terminal, from the text that says it: digits, with a plus sign or not, for a number of 64 bits. -/
def terminalWidth (columns : Option String) : Nat :=
  let digits := match (columns.getD "").toList with
    | '+' :: rest => rest
    | cs => cs
  if digits ≠ [] ∧ digits.all Char.isDigit ∧ Decimal.ofDigits digits < Nat.pow 2 64 then Decimal.ofDigits digits
  else usualWidth

namespace Job

/-- The progress line at the beginning of the run. -/
def progress (j : Job) (columns : Option String) : Report.Progress :=
  { width := terminalWidth columns, total := j.survey.picks.length }

/-- What is written about reports of the job. -/
def output (j : Job) (r : RunReport) : String :=
  if j.options.has .json then r.json.pretty ++ "\n"
  else Report.text (j.options.has .everyType) (!j.options.has .plain) r

/-- What the job comes to. -/
def outcome (j : Job) (columns : Option String) : Outcome where
  exit := 0
  output := j.output (j.survey.run j.vocabulary)
  errors := if j.options.has .progress then String.join ((j.progress columns).marks j.survey.marks) else ""

end Job

/-! Calls. -/

/-- What a call of the program meets with: the sources and the files that it asks for, and the places where it writes. -/
structure Surroundings (m : Type → Type) where
  source : String → m (Option Source)
  read : String → m Content
  /-- The text that says the width of the terminal. -/
  columns : m (Option String)
  printError : String → m Unit
  print : String → m Unit

section
variable {m : Type → Type} [Monad m] (s : Surroundings m)

def write (o : Outcome) : m Nat := do
  s.printError o.errors
  s.print o.output
  return o.exit

/-- What reading a vocabulary table gives, if options name a directory of tables. -/
def readTables (o : Options) : m (VocabularyTable → Content) :=
  match o.vocabulary with
  | none => return fun _ => .error noSuchFile
  | some directory => do
    let elements ← s.read (tablePath directory .elements)
    let classNames ← s.read (tablePath directory .classNames)
    return fun
      | .elements => elements
      | .classNames => classNames

/-- Picks one by one: the report of each is added to those before it, and then the progress line is written. -/
def Job.audit (j : Job) : List Pick → Report.Progress → RunReport → m RunReport
  | [], _, report => return report
  | pick :: rest, progress, report => do
    let report := report.add pick.key (pick.report j.vocabulary)
    if j.options.has .progress then s.printError (progress.mark pick.scanPath)
    audit j rest progress.advance report

/-- The reports of a job. -/
def Job.run (j : Job) : m RunReport := do
  let columns ← s.columns
  j.audit s j.survey.picks (j.progress columns) ⟨j.survey.directories, j.survey.picks.length, []⟩

/-- A call with the given arguments; the result is its exit code. -/
def callIn (arguments : List String) : m Nat := do
  match Options.ofArguments arguments with
  | .error stop => write s stop.outcome
  | .ok o =>
    let source ← s.source o.source
    let tables ← readTables s o
    match prepare o source tables with
    | .error outcome => write s outcome
    | .ok job =>
      let report ← job.run s
      write s ⟨0, job.output report, ""⟩

end

/-- A tree of files around a call, and a record of what the call writes. -/
def recorded (d : Directory) (columns : Option String) : Surroundings (StateM Outcome) where
  source name := return Source.find? d name
  read path := return d.read path
  columns := return columns
  printError text := modify fun o => { o with errors := o.errors ++ text }
  print text := modify fun o => { o with output := o.output ++ text }

/-- The outcome of a call with the given arguments in a directory. -/
def call (d : Directory) (columns : Option String) (arguments : List String) : Outcome :=
  let (exit, written) := (callIn (recorded d columns) arguments).run ⟨0, "", ""⟩
  { written with exit }

end StyleAudit.CommandLine
