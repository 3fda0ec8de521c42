/-!
Grouping: a record of keyed entries read as buckets. Buckets are in the order of their keys, no bucket is empty, and the
entries of a bucket are in the order they were recorded.
-/
namespace StyleAudit

section
variable {κ α : Type} [DecidableEq κ] [LT κ] [DecidableLT κ]

/-- An entry in front of the bucket of its key. -/
def addEntry (key : κ) (entry : α) : List (κ × List α) → List (κ × List α)
  | [] => [(key, [entry])]
  | (k, entries) :: rest =>
    if key = k then (k, entry :: entries) :: rest
    else if key < k then (key, [entry]) :: (k, entries) :: rest
    else (k, entries) :: addEntry key entry rest

def grouped : List (κ × α) → List (κ × List α)
  | [] => []
  | (key, entry) :: rest => addEntry key entry (grouped rest)

/-- The last entry of each key, in the order of the keys. -/
def latest (record : List (κ × α)) : List (κ × α) :=
  (grouped record).filterMap fun (key, entries) => entries.getLast?.map (key, ·)

def entriesOf (key : κ) (record : List (κ × α)) : List α :=
  record.filterMap fun (k, entry) => if k = key then some entry else none

end
end StyleAudit
