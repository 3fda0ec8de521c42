import StyleAudit.Audit.Error
import StyleAudit.Audit.Inspection
import StyleAudit.Audit.MediaType
import StyleAudit.Audit.Sizes
import StyleAudit.Css.Compact
import StyleAudit.Files.Tree
import StyleAudit.Text.Utf8
/-!
The audit of one style sheet. What is worth a note in its rules is listed in document order; the selectors among the
notes are inspected one after the other, and everything that is reported about the sheet is a view of the notes and of
what the inspections found.
-/
namespace StyleAudit

open Css (Rule StyleRule Declaration Stylesheet Issue)

/-- What a rule gives reason to note, with the line of the rule. -/
inductive Note where
  | selector (scope : String) (line : Nat) (text : String)
  | imported (line : Nat) (address : String)
  /-- The families that a declaration in a font face names. -/
  | families (line : Nat) (names : List String)
  /-- An at-rule that the audit has nothing to say about. -/
  | uncategorized (line : Nat) (name : String)
  /-- A rule that has no place in the group that starts on the line. -/
  | misplaced (line : Nat) (construct : String)
  deriving DecidableEq, Repr

def rootScope : String := "root"

/-- The scope of the rules in a group: its prelude or, if it has none, its name. -/
def groupScope (name prelude : String) : String := if prelude = "" then "@" ++ name else prelude

/-- At-rules with descriptors that are not worth a note. -/
def ignoredDescriptors : List String := ["-ms-viewport", "viewport", "page"]

namespace Note

def ofStyleRule (scope : String) (r : StyleRule) : List Note :=
  r.selectors.map (.selector scope r.line)

/-- The families that a declaration of a font face on a line names. -/
def ofFontDeclaration (line : Nat) (d : Declaration) : Option Note :=
  if d.name.toLower = "font-family" then some (.families line d.items) else none

def ofDescriptors (line : Nat) (name : String) (ds : List Declaration) : List Note :=
  if name.toLower = "font-face" then ds.filterMap (ofFontDeclaration line)
  else if name.toLower ∈ ignoredDescriptors then []
  else [.uncategorized line name]

mutual
/-- The notes on a rule in a group that starts on the line and has the scope. -/
def ofGroupedRule (groupLine : Nat) (scope : String) : Rule → List Note
  | .style r => ofStyleRule scope r
  | .group line name prelude rules => ofGroupedRules line (groupScope name prelude) rules
  | .keyframes .. => []
  | .descriptors line name _ ds => ofDescriptors line name ds
  | .charset .. => [.misplaced groupLine "@charset"]
  | .imported .. => [.misplaced groupLine "@import"]
  | .statement _ name _ => [.misplaced groupLine ("@" ++ name)]

def ofGroupedRules (groupLine : Nat) (scope : String) : List Rule → List Note
  | [] => []
  | r :: rest => ofGroupedRule groupLine scope r ++ ofGroupedRules groupLine scope rest
end

/-- The notes on a rule that stands in no group. -/
def ofRule : Rule → List Note
  | .style r => ofStyleRule rootScope r
  | .group line name prelude rules => ofGroupedRules line (groupScope name prelude) rules
  | .keyframes .. | .charset .. => []
  | .imported line url _ => [.imported line url]
  | .descriptors line name _ ds => ofDescriptors line name ds
  | .statement line name _ => [.uncategorized line name]

def ofRules (rules : List Rule) : List Note := rules.flatMap ofRule

def selector? : Note → Option (String × Nat × String)
  | .selector scope line text => some (scope, line, text)
  | _ => none

def imported? : Note → Option (Nat × String)
  | .imported line address => some (line, address)
  | _ => none

def families? : Note → Option (Nat × List String)
  | .families line names => some (line, names)
  | _ => none

def uncategorized? : Note → Option (Nat × String)
  | .uncategorized line name => some (line, "@" ++ name)
  | _ => none

/-- What is found by inspecting the selectors among notes. The first note that the audit has no place for ends it. -/
def findings (v : Vocabulary) (scanPath : String) : List Note → Except AuditError Findings
  | [] => .ok {}
  | .selector _ line text :: rest =>
    match inspect v line text with
    | ⟨found, none⟩ => (findings v scanPath rest).map (found ++ ·)
    | ⟨_, some construct⟩ => .error (.unmodeled scanPath line construct)
  | .misplaced line construct :: _ => .error (.groupItem scanPath line construct)
  | _ :: rest => findings v scanPath rest

end Note

/-- Everything that is known about a style sheet. -/
structure SheetAudit where
  scanPath : String
  sizes : Sizes
  notes : List Note
  issues : List Issue
  findings : Findings
  deriving DecidableEq, Repr

namespace SheetAudit

def ofBytes (v : Vocabulary) (scanPath : String) (bytes : List UInt8) : Except AuditError SheetAudit :=
  let sheet := Stylesheet.ofText (String.ofList (Text.ofUtf8 bytes))
  let notes := Note.ofRules sheet.rules
  (Note.findings v scanPath notes).map fun findings =>
    ⟨scanPath, ⟨bytes.length, sheet.compact.utf8ByteSize⟩, notes, sheet.issues, findings⟩

def ofContent (v : Vocabulary) (scanPath : String) : Files.Content → Except AuditError SheetAudit
  | .ok bytes => ofBytes v scanPath bytes
  | .error reason => .error (.unreadable scanPath reason)

def selectors (a : SheetAudit) : List (String × Nat × String) := a.notes.filterMap Note.selector?

def selectorCount (a : SheetAudit) : Nat := a.selectors.length

/-- The selectors by scope, and in each scope by line. -/
def selectorsByLine (a : SheetAudit) : List (String × List (Nat × List String)) :=
  (grouped a.selectors).map fun (scope, entries) => (scope, grouped entries)

/-- The address that each line imports; of several on one line, the last. -/
def importsByLine (a : SheetAudit) : List (Nat × String) := latest (a.notes.filterMap Note.imported?)

/-- The families that the font faces of each line name. -/
def fontsByLine (a : SheetAudit) : List (Nat × List String) :=
  (grouped (a.notes.filterMap Note.families?)).map fun (line, lists) => (line, lists.flatten)

/-- The at-rules of each line that the audit has nothing to say about. -/
def uncategorizedByLine (a : SheetAudit) : List (Nat × List String) :=
  grouped (a.notes.filterMap Note.uncategorized?)

end SheetAudit
end StyleAudit
