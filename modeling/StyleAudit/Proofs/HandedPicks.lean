import StyleAudit.Proofs.OrderedNames
import StyleAudit.Proofs.RunRecords
import StyleAudit.Proofs.SurveyedDirectories
/-!
The course of picking: scans of sources, picks handed out one by one and all that are left at once, in any order. What a
scan finds is handed out once and in order, however it is taken, and no pick is lost when a source is not there.
-/
namespace StyleAudit

open Files

/-! Courses. -/

/-- What is done with a queue of picks. -/
inductive PickAction where
  | scan (d : Directory) (name : String)
  | next
  | drain

/-- The action is the scan of a source that is there. -/
def PickAction.Succeeds : PickAction → Prop
  | .scan d name => (Source.find? d name).isSome = true
  | .next | .drain => False

/-- A queue, and the picks handed out since the last scan of a source that is there. -/
structure Picking where
  queue : PickQueue := {}
  handed : List Pick := []

namespace Picking

def step (p : Picking) : PickAction → Picking
  | .scan d name =>
    match PickQueue.scan? d name with
    | some queue => { queue }
    | none => p
  | .next => ⟨p.queue.next.2, p.handed ++ p.queue.next.1.toList⟩
  | .drain => ⟨p.queue.drain.2, p.handed ++ p.queue.drain.1⟩

def run (p : Picking) (actions : List PickAction) : Picking := actions.foldl step p

/-- The picks are those of the last scan, which counted the directories. They are handed out in their order; what is not
handed out is left. -/
structure HandsOut (p : Picking) (directories : Nat) (picks : List Pick) : Prop where
  directories : p.queue.directories = directories
  files : p.queue.files = picks.length
  picks : p.handed ++ p.queue.left = picks

section
variable {p : Picking} {directories : Nat} {picks : List Pick} {d : Directory} {name : String}

theorem run_append (front back : List PickAction) : p.run (front ++ back) = (p.run front).run back :=
  List.foldl_append

theorem run_cons (a : PickAction) (rest : List PickAction) : p.run (a :: rest) = (p.step a).run rest := rfl

/-- A scan of a source that is not there changes nothing. -/
theorem step_missing (missing : Source.find? d name = none) : p.step (.scan d name) = p := by
  rw [step, PickQueue.scan?, Survey.ofName, missing]
  rfl

theorem step_found {source : Source} (found : Source.find? d name = some source) :
    p.step (.scan d name) = { queue := .ofSurvey (.ofSource name source) } := by
  rw [step, PickQueue.scan?, Survey.ofName, found]
  rfl

/-- After a scan no pick is handed out. -/
theorem handsOut_found {source : Source} (found : Source.find? d name = some source) :
    (p.step (.scan d name)).HandsOut (Survey.ofSource name source).directories (Survey.ofSource name source).picks := by
  rw [step_found found]
  exact ⟨rfl, rfl, rfl⟩

/-- What is not the scan of a source that is there moves picks from the queue to those handed out, if anything. -/
theorem HandsOut.step {a : PickAction} (h : p.HandsOut directories picks) (idle : ¬ a.Succeeds) :
    (p.step a).HandsOut directories picks := by
  cases a with
  | scan d name =>
      rwa [step_missing (Option.not_isSome_iff_eq_none.mp idle)]
  | next =>
      refine ⟨h.directories, h.files, ?_⟩
      rw [← h.picks, Picking.step, PickQueue.next, List.append_assoc]
      cases p.queue.left <;> rfl
  | drain =>
      refine ⟨h.directories, h.files, ?_⟩
      rw [← h.picks, Picking.step, PickQueue.drain, List.append_nil]

theorem HandsOut.run {actions : List PickAction} (h : p.HandsOut directories picks)
    (idle : ∀ a ∈ actions, ¬ a.Succeeds) : (p.run actions).HandsOut directories picks := by
  induction actions generalizing p with
  | nil => exact h
  | cons a rest ih =>
      obtain ⟨first, idle⟩ := List.forall_mem_cons.mp idle
      exact ih (h.step first) idle

/-- Whatever is done, the picks are those of some scan. -/
theorem handsOut_run (actions : List PickAction) (h : p.HandsOut directories picks) :
    ∃ directories picks, (p.run actions).HandsOut directories picks := by
  induction actions generalizing p directories picks with
  | nil => exact ⟨_, _, h⟩
  | cons a rest ih =>
      by_cases success : a.Succeeds
      · cases a with
        | scan d name =>
            obtain ⟨source, found⟩ := Option.isSome_iff_exists.mp success
            exact ih (handsOut_found found)
        | next | drain => cases success
      · exact ih (h.step success)

theorem handsOut_new : HandsOut {} 0 [] := ⟨rfl, rfl, rfl⟩

theorem HandsOut.count (h : p.HandsOut directories picks) : p.handed.length + p.queue.remaining = p.queue.files := by
  rw [h.files, ← h.picks, List.length_append, PickQueue.remaining]

theorem HandsOut.drain (h : p.HandsOut directories picks) : (p.step .drain).handed = picks := h.picks

end

end Picking

/-! What there is to find. -/

/-- The directories and the files below a directory that no hidden name leads to, each listed once, the files in an order
of their picks. -/
structure Lists (source : String) (entries : Directory) (directories : List (List String))
    (files : List (FilePlace × Content)) : Prop where
  directories_nodup : directories.Nodup
  mem_directories : ∀ names, names ∈ directories ↔ HoldsDirectory entries names
  files_nodup : (files.map fun file => file.1.scanPath).Nodup
  mem_files : ∀ place content, (place, content) ∈ files ↔ LeadsTo entries place content
  ordered : (files.map fun file => file.1.pick source file.2).Pairwise fun p q => p.compare q ≠ .gt

theorem ordered_filesInOrder (source : String) (entries : Directory) :
    ((filesInOrder source entries).map fun file => file.1.pick source file.2).Pairwise fun p q => p.compare q ≠ .gt := by
  have order := ordersConsistently Pick.compare
  rw [← picks_ofSource source false]
  refine (List.pairwise_mergeSort ?_ ?_ _).imp fun le => Ordering.isLE_iff_ne_gt.mp le
  · intro p q r
    simp only [Ordering.isLE_iff_ne_gt]
    exact order.trans p q r
  · intro p q
    rw [order.swap p q]
    cases p.compare q <;> rfl

theorem lists_survey {entries : Directory} (tree : IsTree entries) (source : String) :
    Lists source entries (directoriesBelow entries) (filesInOrder source entries) where
  directories_nodup := nodup_directoriesBelow entries tree
  mem_directories := mem_directoriesBelow entries
  files_nodup := nodup_filesInOrder tree source
  mem_files _ _ := mem_filesInOrder
  ordered := ordered_filesInOrder source entries

theorem directories_ofSource (source : String) (byLink : Bool) (entries : Directory) :
    (Survey.ofSource source (.directory byLink entries)).directories =
      (if byLink then 0 else 1) + (directoriesBelow entries).length := by
  rw [← directories_below source "" entries]
  rfl

/-- Picks are neither lost nor handed out twice, whatever is done with a queue. The picks handed out since the last scan
and those that are left are as many as that scan found files, and a scan of a source that is not there changes nothing.
A scan of a directory counts the directories that no hidden name leads to, and the source itself unless a link leads to
it. It finds the files that no hidden name leads to; up to the next scan just these are handed out or left, once each
and in order, and in the end all of them can be handed out. -/
theorem picking_accounted (before : List PickAction) :
    (Picking.run {} before).handed.length + (Picking.run {} before).queue.remaining =
        (Picking.run {} before).queue.files ∧
      (∀ {d : Directory} {name : String}, Source.find? d name = none →
        (Picking.run {} before).step (.scan d name) = Picking.run {} before) ∧
      ∀ {d : Directory} {name : String} {byLink : Bool} {entries : Directory}, IsTree d →
        Source.find? d name = some (.directory byLink entries) →
        ∃ directories files, Lists name entries directories files ∧
          ∀ more : List PickAction, (∀ a ∈ more, ¬ a.Succeeds) →
            (Picking.run {} (before ++ .scan d name :: more)).HandsOut
                ((if byLink then 0 else 1) + directories.length) (files.map fun file => file.1.pick name file.2) ∧
              ((Picking.run {} (before ++ .scan d name :: more)).step .drain).handed =
                files.map fun file => file.1.pick name file.2 := by
  obtain ⟨_, _, now⟩ := Picking.handsOut_run before Picking.handsOut_new
  refine ⟨now.count, Picking.step_missing, fun {d name byLink entries} tree found => ?_⟩
  refine ⟨_, _, lists_survey (isTree_find tree found) name, fun more idle => ?_⟩
  have scanned := Picking.handsOut_found (p := Picking.run {} before) found
  rw [directories_ofSource, picks_ofSource] at scanned
  rw [Picking.run_append, Picking.run_cons]
  have course := scanned.run idle
  exact ⟨course, course.drain⟩

/-- One pick is handed out, and a source is scanned that is not there: what was found stays as it was. -/
theorem picking_accounted_sample :
    (Picking.run {} [.scan [("site", .directory (sampleSite []))] "site", .next, .scan [] "gone"]).HandsOut 2
      [⟨"site/css", "b.css", "/css/b.css", .error "denied"⟩] := by
  have inside : IsTree (sampleSite []) := isTree_sampleSite isTree_nil (by decide) (by decide)
  have tree : IsTree [("site", .directory (sampleSite []))] := by
    refine isTree_cons.mpr ⟨List.not_mem_nil, by decide, ?_, isTree_nil⟩
    rintro entries ⟨⟩
    exact inside
  obtain ⟨-, -, scans⟩ := picking_accounted []
  obtain ⟨directories, files, lists, course⟩ :=
    scans tree (show Source.find? _ "site" = some (.directory false (sampleSite [])) by cbv)
  have counted : directories.Perm (directoriesBelow (sampleSite [])) := by
    refine (List.perm_ext_iff_of_nodup lists.directories_nodup (nodup_directoriesBelow _ inside)).mpr fun names => ?_
    rw [lists.mem_directories, mem_directoriesBelow]
  have picked : files.Perm (filesBelow (sampleSite [])) := by
    have distinct := nodup_filesBelow _ inside
    refine (List.perm_ext_iff_of_nodup (.of_map _ lists.files_nodup) (.of_map _ distinct)).mpr fun file => ?_
    rw [lists.mem_files, mem_filesBelow]
  have gone : Source.find? [] "gone" = none := by cbv
  have idle : ∀ a ∈ [.next, PickAction.scan [] "gone"], ¬ a.Succeeds := by
    refine List.forall_mem_cons.mpr ⟨id, List.forall_mem_singleton.mpr fun success => ?_⟩
    rw [PickAction.Succeeds, gone] at success
    cases success
  have result := (course _ idle).1
  have two : directories.length = 1 := counted.length_eq
  have one : files = [(⟨["css"], "b.css"⟩, .error "denied")] := List.perm_singleton.mp picked
  rw [two, one] at result
  exact result

/-- A site that is there under two names, of which one is that of a link. -/
def linkedSite : Directory := [("css", .directory [("a.css", .file (.ok []))]), ("site", .link "css")]

/-- A directory to which a link leads is scanned, but it is not counted; under its own name it is. -/
theorem scan_link_uncounted :
    Source.find? linkedSite "site" = some (.directory true [("a.css", .file (.ok []))]) ∧
      (Picking.run {} [.scan linkedSite "site"]).queue.directories = 0 ∧
      (Picking.run {} [.scan linkedSite "site"]).queue.files = 1 ∧
      (Picking.run {} [.scan linkedSite "css"]).queue.directories = 1 ∧
      (Picking.run {} [.scan linkedSite "css"]).queue.files = 1 := by
  have byLink : Source.find? linkedSite "site" = some (.directory true [("a.css", .file (.ok []))]) := by cbv
  have itself : Source.find? linkedSite "css" = some (.directory false [("a.css", .file (.ok []))]) := by cbv
  have one : ∀ source, (filesInOrder source [("a.css", .file (.ok []))]).length = 1 :=
    fun source => (filesInOrder_perm source _).length_eq
  have linked := Picking.handsOut_found (p := {}) byLink
  have counted := Picking.handsOut_found (p := {}) itself
  rw [picks_ofSource] at linked counted
  refine ⟨byLink, linked.directories, linked.files.trans ?_, counted.directories, counted.files.trans ?_⟩
  all_goals
    rw [List.length_map]
    exact one _

end StyleAudit
