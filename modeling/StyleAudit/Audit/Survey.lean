import StyleAudit.Audit.MediaType
import StyleAudit.Files.Tree
import StyleAudit.Text.NaturalOrder
/-!
Surveys: the files of a source, which is a directory or a single file, picked in the natural order of their places.
Entries whose names begin with a full stop are hidden, and so is what is in them; links are not followed. Every directory is
taken to be readable; a walk that comes to one that is not stops half-way, and is no survey.
-/
namespace StyleAudit

open Files

/-- A file picked for audit: the directory it is in, its name, its place as seen from the source, and its content. -/
structure Pick where
  directory : String
  filename : String
  scanPath : String
  content : Content

namespace Pick

def mediaType (p : Pick) : String := StyleAudit.mediaType p.filename

def fullPath (p : Pick) : String := Path.join p.directory p.filename

/-- The order of picks: by directory and then by name. -/
def compare (p q : Pick) : Ordering :=
  (Text.naturalOrder p.directory q.directory).then (Text.naturalOrder p.filename q.filename)

end Pick

/-- What the name of a source leads to. A directory may be reached by a link. -/
inductive Source where
  | file (content : Content)
  | directory (byLink : Bool) (entries : Directory)

/-- The source of a name, as seen from a directory. -/
def Source.find? (d : Directory) (name : String) : Option Source :=
  match d.find? true name with
  | some (.file content) => some (.file content)
  | some (.directory entries) =>
    some (.directory (match d.find? false name with | some (.link _) => true | _ => false) entries)
  | _ => none

/-- How many directories there are in a source, and the files in it. -/
structure Survey where
  directories : Nat := 0
  picks : List Pick := []

def isHidden (name : String) : Bool := name.toList.head? = some '.'

namespace Survey

instance : Append Survey := ⟨fun s t => ⟨s.directories + t.directories, s.picks ++ t.picks⟩⟩

@[simp] theorem directories_append (s t : Survey) : (s ++ t).directories = s.directories + t.directories := rfl
@[simp] theorem picks_append (s t : Survey) : (s ++ t).picks = s.picks ++ t.picks := rfl

/-- The pick of a file in a directory that has a path and a scan path. -/
def pickOf (path scanPath name : String) (content : Content) : Pick :=
  ⟨Path.directory (Path.join path name), name, scanPath ++ "/" ++ name, content⟩

mutual
/-- What there is in an entry of a directory that has a path and a scan path. -/
def ofEntry (path scanPath name : String) : Entry → Survey
  | .file content => { picks := [pickOf path scanPath name content] }
  | .directory entries => { directories := 1 } ++ below (Path.join path name) (scanPath ++ "/" ++ name) entries
  | .link _ => {}

/-- What there is below a directory that has a path and a scan path. -/
def below (path scanPath : String) : List (String × Entry) → Survey
  | [] => {}
  | (name, entry) :: rest =>
    (if isHidden name then {} else ofEntry path scanPath name entry) ++ below path scanPath rest
end

/-- A survey with its picks in order. -/
def sorted (s : Survey) : Survey :=
  { s with picks := s.picks.mergeSort fun p q => (p.compare q).isLE }

/-- The survey of a source with the given name. A directory counts itself unless it is reached by a link; a single file
counts none. -/
def ofSource (name : String) : Source → Survey
  | .file content => { picks := [⟨Path.directory name, Path.name name, name, content⟩] }
  | .directory byLink entries => ({ directories := if byLink then 0 else 1 } ++ below name "" entries).sorted

/-- The survey of the source that a name leads to from a directory. -/
def ofName (d : Directory) (name : String) : Option Survey := (Source.find? d name).map (ofSource name)

end Survey
end StyleAudit
