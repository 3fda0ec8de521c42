import StyleAudit.Audit.PickQueue
/-!
Walks over sources of which some directories cannot be read. A walk stops at the first of these; what it has found until then
stays in the queue as it came, neither sorted nor thrown away. Surveys are those walks that come to their end.
-/
namespace StyleAudit

open Files

/-- What a walk has found, and the directory that stopped it. -/
structure Walk where
  found : Survey := {}
  stop : Option String := none

namespace Walk

/-- One walk behind another, which is not begun if the first one stops. -/
def followedBy (w next : Walk) : Walk :=
  match w.stop with
  | some _ => w
  | none => ⟨w.found ++ next.found, next.stop⟩

section
variable (isReadable : String → Bool)

/-- The arrival at a directory, which counts before it is read. -/
def arrive (path : String) (count : Nat) : Walk := ⟨{ directories := count }, if isReadable path then none else some path⟩

mutual
def ofEntry (path scanPath name : String) : Entry → Walk
  | .file content => { found := { picks := [Survey.pickOf path scanPath name content] } }
  | .directory entries =>
    let inner := Path.join path name
    (arrive isReadable inner 1).followedBy (below inner (scanPath ++ "/" ++ name) entries)
  | .link _ => {}

def below (path scanPath : String) : List (String × Entry) → Walk
  | [] => {}
  | (name, entry) :: rest =>
    (if isHidden name then {} else ofEntry path scanPath name entry).followedBy (below path scanPath rest)
end

/-- The walk over a source with the given name. -/
def ofSource (name : String) : Source → Walk
  | .file content => { found := .ofSource name (.file content) }
  | .directory byLink entries =>
    (arrive isReadable name (if byLink then 0 else 1)).followedBy (below isReadable name "" entries)

end

/-- The queue that a walk leaves. Its picks are sorted if it has come to its end. -/
def queue (w : Walk) : PickQueue :=
  match w.stop with
  | some _ => .ofSurvey w.found
  | none => .ofSurvey w.found.sorted

end Walk

namespace PickQueue

/-- What a scan reports that could not go through its source, with what the system says of the directory that stopped it. -/
def stopped (name reason : String) : String := "could not scan " ++ name ++ ": " ++ reason

/-- The queue behind a scan of the source that a name leads to from a directory, and what the scan reports if it fails. If there
is no such source, the queue stays as it is. -/
def scan (isReadable : String → Bool) (reason : String → String) (d : Directory) (name : String) (q : PickQueue) :
    PickQueue × Option String :=
  match Source.find? d name with
  | none => (q, some (notFound name))
  | some source =>
    let walk := Walk.ofSource isReadable name source
    (walk.queue, walk.stop.map fun directory => stopped name (reason directory))

end PickQueue
end StyleAudit
