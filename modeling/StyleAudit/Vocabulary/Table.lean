import StyleAudit.Json.Reader
import StyleAudit.Vocabulary.Basic
/-!
Vocabularies written as tables: JSON objects whose keys are the names and whose values are markers. A name counts only if
its marker is truthy, so that an entry can be switched off without being taken out.
-/
namespace StyleAudit

/-- The two documents of a vocabulary. -/
inductive VocabularyTable where
  | elements
  | classNames
  deriving DecidableEq, Repr

namespace VocabularyTable

def name : VocabularyTable → String
  | .elements => "POSH element table"
  | .classNames => "microformats table"

def filename : VocabularyTable → String
  | .elements => "plain_old_simple_html_elements.json"
  | .classNames => "microformats_generation_class_tokens.json"

end VocabularyTable

/-- Why two documents are no vocabulary. -/
inductive VocabularyError where
  | notJson (table : VocabularyTable)
  | notObject (table : VocabularyTable)
  | noSection (table : VocabularyTable) (name : String)
  deriving DecidableEq, Repr

def VocabularyError.message : VocabularyError → String
  | .notJson table => table.name ++ " is not valid JSON"
  | .notObject table => table.name ++ " is malformed: expected a JSON object"
  | .noSection table name => table.name ++ " is malformed: missing the \"" ++ name ++ "\" object"

namespace Vocabulary

/-- The keys of an object that are switched on, in lower case. -/
def namesOf (table : VocabularyTable) : Json.Value → Except VocabularyError (List String)
  | .object members => .ok ((members.filter (·.2.isTruthy)).map fun m => m.1.toLower)
  | _ => .error (.notObject table)

/-- The names in a section of the table of class names. -/
def sectionNames (name : String) (value : Json.Value) : Except VocabularyError (List String) :=
  match value.get? name with
  | some inner => namesOf .classNames inner
  | none => .error (.noSection .classNames name)

def readTable (table : VocabularyTable) (text : String) : Except VocabularyError Json.Value :=
  match Json.read? text with
  | some value => .ok value
  | none => .error (.notJson table)

/-- The vocabulary that two documents write: first both have to be JSON, then the elements and then the two sections of
class names have to be objects. -/
def ofJson (elements classNames : String) : Except VocabularyError Vocabulary := do
  let elements ← readTable .elements elements
  let classNames ← readTable .classNames classNames
  let posh ← namesOf .elements elements
  let microformats ← sectionNames "microformats" classNames
  let microformats2 ← sectionNames "microformats2" classNames
  return ⟨posh, microformats, microformats2⟩

end Vocabulary
end StyleAudit
