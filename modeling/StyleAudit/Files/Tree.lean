import StyleAudit.Files.Path
/-!
Trees of files: directories with named entries, files with what reading them gives, and symbolic links. A path is
followed through a tree from a directory in it.
-/
namespace StyleAudit.Files

/-- What reading a file gives: its bytes, or what the system says instead. -/
abbrev Content := Except String (List UInt8)

/-- What a name in a directory stands for. -/
inductive Entry where
  | file (content : Content)
  | directory (entries : List (String × Entry))
  /-- A link to what the path leads to from the directory that the link is in. -/
  | link (target : String)
  deriving Inhabited

abbrev Directory := List (String × Entry)

/-- What the system says of a file that is not there. -/
def noSuchFile : String := "No such file or directory (os error 2)"

/-- How many links are followed on one way. -/
def linkLimit : Nat := 40

namespace Directory

/-- The entry that pieces of a path lead to from a directory, which has others above it, the nearest one first. Links on
the way are followed, as many as are left; a link at the end is followed if `following` says so. -/
def locate (following : Bool) (links : Nat) (above : List Directory) (here : Directory) : List String → Option Entry
  | [] => some (.directory here)
  | piece :: rest =>
    if Path.isIdle piece then locate following links above here rest
    else if piece = ".." then
      match above with
      | [] => none
      | up :: more => locate following links more up rest
    else match List.lookup piece here with
      | none => none
      | some (.directory entries) => locate following links (here :: above) entries rest
      | some (.file content) => if rest = [] then some (.file content) else none
      | some (.link target) =>
        if rest = [] ∧ !following then some (.link target)
        else match links with
          | 0 => none
          | more + 1 =>
            if target = "" ∨ Path.isAbsolute target then none
            else locate following more above here (Path.pieces target ++ rest)
termination_by pieces => (links, pieces.length)

/-- What a path leads to from a directory. An empty path leads nowhere, and one that does not start from the directory
leads out of the tree. -/
def find? (d : Directory) (following : Bool) (path : String) : Option Entry :=
  if path = "" ∨ Path.isAbsolute path then none else d.locate following linkLimit [] (Path.pieces path)

/-- What reading the file at a path gives. -/
def read (d : Directory) (path : String) : Content :=
  match d.find? true path with
  | some (.file content) => content
  | _ => .error noSuchFile

/-- The entries of a directory with one put under a name, in the place of the entry that has it already. -/
def put (name : String) (entry : Entry) : Directory → Directory
  | [] => [(name, entry)]
  | (n, e) :: rest => if n = name then (n, entry) :: rest else (n, e) :: put name entry rest

/-- A directory with an entry put at the end of a path; directories on the way are made. A directory that is there
already keeps what it holds. -/
def add (d : Directory) (path : List String) (entry : Entry) : Directory :=
  match path with
  | [] => d
  | [name] =>
    match entry, List.lookup name d with
    | .directory [], some (.directory _) => d
    | _, _ => put name entry d
  | name :: rest =>
    match List.lookup name d with
    | some (.directory entries) => put name (.directory (add entries rest entry)) d
    | _ => put name (.directory (add [] rest entry)) d

end Directory
end StyleAudit.Files
