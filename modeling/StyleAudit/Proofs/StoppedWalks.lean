import StyleAudit.Audit.Walk
import StyleAudit.Proofs.SurveyedDirectories
/-!
A walk that comes to its end leaves the queue of the whole survey. One that stops has gone through a part of it: the picks it
leaves are the first ones on its way, and it has counted no more than there is.
-/
namespace StyleAudit

open Files

namespace Walk

/-- A walk is over a part of what there is, and over the whole of it unless it stops. -/
structure IsOver (w : Walk) (s : Survey) : Prop where
  whole : w.stop = none → w.found = s
  picks : w.found.picks <+: s.picks
  directories : w.found.directories ≤ s.directories

variable {isReadable : String → Bool}

theorem IsOver.of_found {s : Survey} : IsOver { found := s } s := ⟨fun _ => rfl, List.prefix_rfl, Nat.le_refl _⟩

theorem IsOver.followedBy {w next : Walk} {s t : Survey} (h : w.IsOver s) (later : next.IsOver t) :
    (w.followedBy next).IsOver (s ++ t) := by
  unfold Walk.followedBy
  split
  · next stop =>
      exact ⟨fun none => absurd (stop.symm.trans none) (Option.some_ne_none _), h.picks.trans (List.prefix_append _ _),
        Nat.le_add_right_of_le h.directories⟩
  · next onward =>
      rw [h.whole onward]
      refine ⟨fun none => congrArg (s ++ ·) (later.whole none), ?_, Nat.add_le_add_left later.directories _⟩
      exact (List.prefix_append_right_inj _).mpr later.picks

theorem isOver_arrive (path : String) (count : Nat) : (arrive isReadable path count).IsOver { directories := count } :=
  ⟨fun _ => rfl, List.prefix_rfl, Nat.le_refl _⟩

mutual
theorem isOver_ofEntry (path scanPath name : String) : ∀ entry : Entry,
    (ofEntry isReadable path scanPath name entry).IsOver (.ofEntry path scanPath name entry)
  | .file content => by
      rw [ofEntry, Survey.ofEntry]
      exact .of_found
  | .directory entries => by
      rw [ofEntry, Survey.ofEntry]
      exact (isOver_arrive _ 1).followedBy (isOver_below _ _ entries)
  | .link _ => by
      rw [ofEntry, Survey.ofEntry]
      exact .of_found

theorem isOver_below (path scanPath : String) : ∀ d : List (String × Entry),
    (below isReadable path scanPath d).IsOver (.below path scanPath d)
  | [] => by
      rw [below, Survey.below]
      exact .of_found
  | (name, entry) :: rest => by
      rw [below, Survey.below]
      refine .followedBy ?_ (isOver_below path scanPath rest)
      split
      · exact .of_found
      · exact isOver_ofEntry path scanPath name entry
end

/-! Where a walk comes to its end. -/

theorem stop_followedBy {w next : Walk} : (w.followedBy next).stop = none ↔ w.stop = none ∧ next.stop = none := by
  unfold Walk.followedBy
  split
  · next stop => simp [stop]
  · next onward => simp [onward]

theorem stop_arrive {path : String} {count : Nat} : (arrive isReadable path count).stop = none ↔ isReadable path = true := by
  unfold arrive
  split <;> simp [*]

mutual
theorem stop_ofEntry (path scanPath name : String) : ∀ entry : Entry,
    (ofEntry isReadable path scanPath name entry).stop = none ↔
      ∀ place ∈ directoriesOf name entry, isReadable (place.foldl Path.join path) = true
  | .file _ | .link _ => by
      rw [ofEntry, directoriesOf]
      exact iff_of_true rfl (List.forall_mem_nil _)
  | .directory entries => by
      rw [ofEntry, directoriesOf, stop_followedBy, stop_arrive, stop_below, List.forall_mem_cons, List.forall_mem_map]
      rfl

/-- A walk goes through a directory if it can read all those below it that no hidden name leads to. -/
theorem stop_below (path scanPath : String) : ∀ d : List (String × Entry),
    (below isReadable path scanPath d).stop = none ↔
      ∀ place ∈ directoriesBelow d, isReadable (place.foldl Path.join path) = true
  | [] => by
      rw [below, directoriesBelow]
      exact iff_of_true rfl (List.forall_mem_nil _)
  | (name, entry) :: rest => by
      rw [below, directoriesBelow, stop_followedBy, stop_below path scanPath rest, List.forall_mem_append]
      refine and_congr_left' ?_
      split
      · exact iff_of_true rfl (List.forall_mem_nil _)
      · exact stop_ofEntry path scanPath name entry
end

variable (isReadable) (name : String) (byLink : Bool) (entries : Directory)

theorem isOver_ofSource : (ofSource isReadable name (.directory byLink entries)).IsOver
    ({ directories := if byLink then 0 else 1 } ++ .below name "" entries) :=
  (isOver_arrive name _).followedBy (isOver_below name "" entries)

/-- A scan succeeds exactly if the source can be read, and so can the directories in it that no hidden name leads to. Then it
leaves the queue of the survey. -/
theorem queue_ofSource :
    ((ofSource isReadable name (.directory byLink entries)).stop = none ↔
      isReadable name = true ∧ ∀ place, HoldsDirectory entries place → isReadable (place.foldl Path.join name) = true) ∧
    ((ofSource isReadable name (.directory byLink entries)).stop = none →
      (ofSource isReadable name (.directory byLink entries)).queue = .ofSurvey (.ofSource name (.directory byLink entries))) := by
  constructor
  · rw [ofSource, stop_followedBy, stop_arrive, stop_below]
    simp only [mem_directoriesBelow]
  · intro onward
    rw [queue, onward]
    exact congrArg (fun s => PickQueue.ofSurvey (Survey.sorted s)) ((isOver_ofSource isReadable name byLink entries).whole onward)

/-- A scan that fails leaves picks of files that are there, the first ones on its way and in no order but that. -/
theorem queue_ofSource_stopped {directory : String}
    (stopped : (ofSource isReadable name (.directory byLink entries)).stop = some directory) :
    (ofSource isReadable name (.directory byLink entries)).queue.left <+:
        (filesBelow entries).map (fun file => file.1.pick name file.2) ∧
      (ofSource isReadable name (.directory byLink entries)).queue.files =
        (ofSource isReadable name (.directory byLink entries)).queue.left.length ∧
      (ofSource isReadable name (.directory byLink entries)).queue.directories ≤
        (Survey.ofSource name (.directory byLink entries)).directories := by
  have part := isOver_ofSource isReadable name byLink entries
  have picked : (({ directories := if byLink then 0 else 1 } : Survey) ++ .below name "" entries).picks =
      (filesBelow entries).map fun file => file.1.pick name file.2 :=
    (picks_below name "" entries).trans (List.map_congr_left fun file _ => pickOfFile_eq name file)
  rw [queue, stopped, ← picked]
  exact ⟨part.picks, rfl, part.directories⟩

end Walk

/-- Where every directory can be read, a scan is the survey of its source. -/
theorem PickQueue.scan_readable (reason : String → String) (d : Directory) (name : String) (q : PickQueue) :
    PickQueue.scan (fun _ => true) reason d name q =
      match PickQueue.scan? d name with
      | some queue => (queue, none)
      | none => (q, some (PickQueue.notFound name)) := by
  rw [scan, scan?, Survey.ofName]
  cases Source.find? d name with
  | none => rfl
  | some source =>
      cases source with
      | file content => simp [Walk.ofSource, Walk.queue, Survey.ofSource, Survey.sorted]
      | directory byLink entries =>
          obtain ⟨onward, queue⟩ := Walk.queue_ofSource (fun _ => true) name byLink entries
          have whole := onward.mpr ⟨rfl, fun _ _ => rfl⟩
          simp only [whole, queue whole]
          rfl

end StyleAudit
