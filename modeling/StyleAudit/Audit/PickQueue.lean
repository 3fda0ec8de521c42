import StyleAudit.Audit.Survey
/-!
A queue of picks, handed out one by one. Scanning another source puts its picks in the place of those that are left;
scanning a source that is not there changes nothing. As in a survey, every directory is taken to be readable.
-/
namespace StyleAudit

/-- The picks not yet handed out, and how much the last scan found. -/
structure PickQueue where
  left : List Pick := []
  directories : Nat := 0
  files : Nat := 0

namespace PickQueue

/-- The queue at the beginning of a survey. -/
def ofSurvey (s : Survey) : PickQueue := ⟨s.picks, s.directories, s.picks.length⟩

/-- The queue after a scan of the source that a name leads to from a directory; none if it leads nowhere. -/
def scan? (d : Files.Directory) (name : String) : Option PickQueue := (Survey.ofName d name).map ofSurvey

/-- What a scan of a source that is not there reports. -/
def notFound (name : String) : String := "no such file or directory: " ++ name

/-- The next pick, if there is one left, and the queue without it. -/
def next (q : PickQueue) : Option Pick × PickQueue := (q.left.head?, { q with left := q.left.tail })

/-- All picks that are left, and the queue without them. -/
def drain (q : PickQueue) : List Pick × PickQueue := (q.left, { q with left := [] })

def remaining (q : PickQueue) : Nat := q.left.length

end PickQueue
end StyleAudit
