/-!
Paths as texts: pieces between slashes, the way to what a path names, and the name itself.
-/
namespace StyleAudit.Files

/-- The pieces of a text between slashes; there is one more of them than slashes. -/
def splitAtSlashes : List Char → List (List Char)
  | [] => [[]]
  | c :: rest =>
    if c = '/' then [] :: splitAtSlashes rest
    else match splitAtSlashes rest with
      | [] => [[c]]
      | piece :: more => (c :: piece) :: more

namespace Path

def pieces (path : String) : List String := (splitAtSlashes path.toList).map String.ofList

/-- A piece that leads nowhere else. -/
def isIdle (piece : String) : Bool := piece = "" || piece = "."

/-- The way to a file in a directory. -/
def join (directory name : String) : String :=
  if directory = "" then name
  else if directory.toList.getLast? = some '/' then directory ++ name
  else directory ++ "/" ++ name

def name (path : String) : String := (pieces path).getLast?.getD ""

/-- The directory of what a path leads to. Pieces that lead nowhere else are left out at its end, but for the first
piece. -/
def directory (path : String) : String :=
  match (pieces path).dropLast with
  | [] => ""
  | first :: rest =>
    let kept := (rest.reverse.dropWhile isIdle).reverse
    if first = "" ∧ kept = [] then "/" else "/".intercalate (first :: kept)

/-- Whether a path does not start from where it is used. -/
def isAbsolute (path : String) : Bool := path.toList.head? = some '/'

end Path
end StyleAudit.Files
