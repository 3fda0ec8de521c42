import StyleAudit.CommandLine.Outcome
/-!
The program: calls in the surroundings that the system gives. Style sheets are the only files of a source that are read, and
a source with a directory that cannot be read ends the call.
-/
namespace StyleAudit.CommandLine

open Files

/-- A text as a path of the system. -/
def systemPath (path : String) := (IO.FS.DirEntry.mk path "").root

/-- What the system says of a file that cannot be read. -/
def reasonOf : IO.Error → String
  | .noFileOrDirectory .. => noSuchFile
  | e => toString e

/-- What reading a file gives. -/
def contentOf (path : String) : IO Content := do
  try
    let bytes ← IO.FS.readBinFile path
    return .ok bytes.toList
  catch e => return .error (reasonOf e)

/-- The content of a file if it is a style sheet, and nothing otherwise. -/
def sheetContent (path name : String) : IO Content :=
  if mediaType name = styleSheetType then contentOf path else return .ok []

/-- The entries of a directory that are not hidden. Where links lead to is left out, since none is followed. -/
partial def directoryOf (path : String) : IO Directory := do
  let mut entries : Directory := []
  for entry in ← (systemPath path).readDir do
    let name := entry.fileName
    if !isHidden name then
      match (← entry.path.symlinkMetadata).type with
      | .dir => entries := (name, .directory (← directoryOf (Path.join path name))) :: entries
      | .file => entries := (name, .file (← sheetContent (Path.join path name) name)) :: entries
      | .symlink => entries := (name, .link "") :: entries
      | .other => pure ()
  return entries.reverse

/-- The source of a name, if there is one. -/
def sourceOf (name : String) : IO (Option Source) := do
  let path := systemPath name
  if !(← path.pathExists) then return none
  if ← path.isDir then
    let byLink := (← path.symlinkMetadata).type == .symlink
    return some (.directory byLink (← directoryOf name))
  return some (.file (← sheetContent name (Path.name name)))

/-- The files of the system, and its streams. -/
def system : Surroundings IO where
  source := sourceOf
  read := contentOf
  columns := IO.getEnv "COLUMNS"
  printError text := IO.eprint text
  print text := IO.print text

end StyleAudit.CommandLine

/-- The program: a call among the files of the system. -/
def main (arguments : List String) : IO UInt32 := do
  return (← StyleAudit.CommandLine.callIn StyleAudit.CommandLine.system arguments).toUInt32
