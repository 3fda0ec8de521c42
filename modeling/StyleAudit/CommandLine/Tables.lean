import StyleAudit.Files.Tree
import StyleAudit.Text.Utf8
import StyleAudit.Vocabulary.Table
/-!
Vocabulary tables in files: two files of fixed names in one directory.
-/
namespace StyleAudit.CommandLine

open Files

/-- Why the files of a directory give no vocabulary. -/
inductive TableError where
  | unreadable (path reason : String)
  | malformed (error : VocabularyError)
  deriving DecidableEq, Repr

/-- What went wrong, and what that was caused by. -/
def TableError.causes : TableError → List String
  | .unreadable path reason => ["could not read " ++ path ++ ": " ++ reason, reason]
  | .malformed e => [e.message]

/-- What is said of a file of tables that is no text. -/
def noText : String := "stream did not contain valid UTF-8"

/-- Bytes as the text that is written by them and no others; none if there is no such text. -/
def text? (bytes : List UInt8) : Option String :=
  let text := String.ofList (Text.ofUtf8 bytes)
  if Text.toUtf8 text = bytes then some text else none

def tablePath (directory : String) (table : VocabularyTable) : String := Path.join directory table.filename

/-- The text of a table, from what reading its file gives. -/
def tableText (directory : String) (table : VocabularyTable) : Content → Except TableError String
  | .error reason => .error (.unreadable (tablePath directory table) reason)
  | .ok bytes =>
    match text? bytes with
    | some text => .ok text
    | none => .error (.unreadable (tablePath directory table) noText)

def tablesVocabulary (directory : String) (elements classNames : Content) : Except TableError Vocabulary := do
  let elements ← tableText directory .elements elements
  let classNames ← tableText directory .classNames classNames
  match Vocabulary.ofJson elements classNames with
  | .ok v => return v
  | .error e => .error (.malformed e)

/-- The causes as lines, numbered if there is more than one. -/
def causeLines : List String → List String
  | [cause] => ["    " ++ cause]
  | causes => causes.zipIdx.map fun (cause, i) => "    " ++ toString i ++ ": " ++ cause

/-- What is written when the tables of a directory give no vocabulary. -/
def tableFailure (directory : String) (e : TableError) : String :=
  "Error: failed to load vocabulary from " ++ directory ++ "\n\nCaused by:\n" ++
    String.join ((causeLines e.causes).map (· ++ "\n"))

end StyleAudit.CommandLine
