import Mathlib.Data.List.Nodup
import StyleAudit.Audit.Run
/-!
The files of a source. A survey picks each file that no hidden name leads to, and picks it once; in a tree as it stands
on a disk no two of them have one scan path.
-/
namespace StyleAudit

open Files

/-- Where a file is below a directory: the names of the directories on the way, and its own name. -/
@[ext] structure FilePlace where
  directories : List String
  name : String
  deriving DecidableEq, Repr

namespace FilePlace

def names (p : FilePlace) : List String := p.directories ++ [p.name]

/-- Each name behind a slash. -/
def scanPath (p : FilePlace) : String := String.ofList (p.names.flatMap fun name => '/' :: name.toList)

def key (p : FilePlace) : FileKey := ⟨mediaType p.name, p.scanPath⟩

/-- The place as seen from the directory above. -/
def within (directory : String) (p : FilePlace) : FilePlace := ⟨directory :: p.directories, p.name⟩

/-- The pick of a file that is there, below a source with that name. -/
def pick (p : FilePlace) (source : String) (content : Content) : Pick where
  directory := Path.directory (Path.join (p.directories.foldl Path.join source) p.name)
  filename := p.name
  scanPath := p.scanPath
  content := content

end FilePlace

/-- A file is at a place below a directory. No name on the way to it is hidden, and none is that of a link. -/
inductive LeadsTo : Directory → FilePlace → Content → Prop
  | here {d : Directory} {name : String} {content : Content} : (name, .file content) ∈ d → isHidden name = false →
      LeadsTo d ⟨[], name⟩ content
  | inside {d entries : Directory} {directory : String} {place : FilePlace} {content : Content} :
      (directory, .directory entries) ∈ d → isHidden directory = false → LeadsTo entries place content →
      LeadsTo d (place.within directory) content

/-- A directory as it stands on a disk: its names differ and hold no slash, and so it is in the directories within. -/
inductive IsTree : Directory → Prop
  | of {d : Directory} : (d.map Prod.fst).Nodup → (∀ entry ∈ d, '/' ∉ entry.1.toList) →
      (∀ name entries, (name, Entry.directory entries) ∈ d → IsTree entries) → IsTree d

/-! The files of a directory, listed. -/

mutual
/-- The files that a name leads to, with their places. -/
def filesOf (name : String) : Entry → List (FilePlace × Content)
  | .file content => [(⟨[], name⟩, content)]
  | .directory entries => (filesBelow entries).map fun file => (file.1.within name, file.2)
  | .link _ => []

/-- The files below a directory, with their places. -/
def filesBelow : List (String × Entry) → List (FilePlace × Content)
  | [] => []
  | (name, entry) :: rest => (if isHidden name then [] else filesOf name entry) ++ filesBelow rest
end

/-- The pick of a file below a directory that has a path and a scan path. -/
def pickAt (path scanPath : String) (content : Content) (name : String) : List String → Pick
  | [] => Survey.pickOf path scanPath name content
  | directory :: rest => pickAt (Path.join path directory) (scanPath ++ "/" ++ directory) content name rest

def pickOfFile (path scanPath : String) (file : FilePlace × Content) : Pick :=
  pickAt path scanPath file.2 file.1.name file.1.directories

mutual
theorem picks_ofEntry (path scanPath name : String) : ∀ entry : Entry,
    (Survey.ofEntry path scanPath name entry).picks = (filesOf name entry).map (pickOfFile path scanPath)
  | .file content => by rw [Survey.ofEntry, filesOf]; rfl
  | .directory entries => by
      rw [Survey.ofEntry, filesOf, Survey.picks_append, picks_below, List.map_map]
      rfl
  | .link _ => by rw [Survey.ofEntry, filesOf]; rfl

/-- A survey picks the files below a directory. -/
theorem picks_below (path scanPath : String) : ∀ d : List (String × Entry),
    (Survey.below path scanPath d).picks = (filesBelow d).map (pickOfFile path scanPath)
  | [] => by rw [Survey.below, filesBelow]; rfl
  | (name, entry) :: rest => by
      rw [Survey.below, filesBelow, Survey.picks_append, List.map_append, picks_below path scanPath rest]
      congr 1
      split
      · rfl
      · exact picks_ofEntry path scanPath name entry
end

/-! Where a directory leads to. -/

section
variable {name : String} {place : FilePlace} {content : Content}

theorem leadsTo_append {front back : Directory} :
    LeadsTo (front ++ back) place content ↔ LeadsTo front place content ∨ LeadsTo back place content := by
  constructor
  · intro h
    cases h with
    | here mem shown => exact (List.mem_append.mp mem).imp (.here · shown) (.here · shown)
    | inside mem shown tail => exact (List.mem_append.mp mem).imp (.inside · shown tail) (.inside · shown tail)
  · rintro (h | h)
    · cases h with
      | here mem shown => exact .here (List.mem_append_left _ mem) shown
      | inside mem shown tail => exact .inside (List.mem_append_left _ mem) shown tail
    · cases h with
      | here mem shown => exact .here (List.mem_append_right _ mem) shown
      | inside mem shown tail => exact .inside (List.mem_append_right _ mem) shown tail

theorem leadsTo_nil : ¬ LeadsTo [] place content := by
  intro h
  cases h with
  | here mem _ => cases mem
  | inside mem _ _ => cases mem

theorem leadsTo_file {other : Content} :
    LeadsTo [(name, .file other)] place content ↔ isHidden name = false ∧ place = ⟨[], name⟩ ∧ content = other := by
  constructor
  · intro h
    cases h with
    | here mem shown =>
        obtain ⟨rfl, same⟩ := Prod.mk.inj (List.mem_singleton.mp mem)
        exact ⟨shown, rfl, Entry.file.inj same⟩
    | inside mem _ _ => cases List.mem_singleton.mp mem
  · rintro ⟨shown, rfl, rfl⟩
    exact .here List.mem_cons_self shown

theorem leadsTo_directory {entries : Directory} :
    LeadsTo [(name, .directory entries)] place content ↔
      isHidden name = false ∧ ∃ inner, place = inner.within name ∧ LeadsTo entries inner content := by
  constructor
  · intro h
    cases h with
    | here mem _ => cases List.mem_singleton.mp mem
    | inside mem shown tail =>
        obtain ⟨rfl, same⟩ := Prod.mk.inj (List.mem_singleton.mp mem)
        obtain rfl := Entry.directory.inj same
        exact ⟨shown, _, rfl, tail⟩
  · rintro ⟨shown, inner, rfl, tail⟩
    exact .inside List.mem_cons_self shown tail

theorem leadsTo_link {target : String} : ¬ LeadsTo [(name, .link target)] place content := by
  intro h
  cases h with
  | here mem _ => cases List.mem_singleton.mp mem
  | inside mem _ _ => cases List.mem_singleton.mp mem

theorem LeadsTo.shown {entry : Entry} (h : LeadsTo [(name, entry)] place content) : isHidden name = false := by
  cases entry with
  | file _ => exact (leadsTo_file.mp h).1
  | directory _ => exact (leadsTo_directory.mp h).1
  | link _ => exact absurd h leadsTo_link

mutual
theorem mem_filesOf (place : FilePlace) (content : Content) (name : String) (shown : isHidden name = false) :
    ∀ entry : Entry, (place, content) ∈ filesOf name entry ↔ LeadsTo [(name, entry)] place content
  | .file other => by
      rw [filesOf, List.mem_singleton, leadsTo_file, Prod.mk.injEq, and_iff_right shown]
  | .directory entries => by
      rw [filesOf, List.mem_map, leadsTo_directory, and_iff_right shown]
      constructor
      · rintro ⟨⟨inner, _⟩, mem, same⟩
        obtain ⟨rfl, rfl⟩ := Prod.mk.inj same
        exact ⟨inner, rfl, (mem_filesBelow inner _ entries).mp mem⟩
      · rintro ⟨inner, rfl, tail⟩
        exact ⟨(inner, content), (mem_filesBelow inner content entries).mpr tail, rfl⟩
  | .link _ => by
      rw [filesOf]
      exact iff_of_false List.not_mem_nil leadsTo_link

/-- The list is that of the files at all places. -/
theorem mem_filesBelow (place : FilePlace) (content : Content) : ∀ d : List (String × Entry),
    (place, content) ∈ filesBelow d ↔ LeadsTo d place content
  | [] => by
      rw [filesBelow]
      exact iff_of_false List.not_mem_nil leadsTo_nil
  | (name, entry) :: rest => by
      rw [filesBelow, List.mem_append, ← List.singleton_append, leadsTo_append, mem_filesBelow place content rest]
      refine or_congr_left ?_
      split
      · next hidden => exact iff_of_false List.not_mem_nil fun h => by rw [h.shown] at hidden; cases hidden
      · next shown => exact mem_filesOf place content name (Bool.eq_false_iff.mpr shown) entry
end

end

/-! Places in a tree. -/

theorem isTree_nil : IsTree [] := .of List.nodup_nil (List.forall_mem_nil _) fun _ _ mem => by cases mem

theorem isTree_cons {name : String} {entry : Entry} {rest : Directory} : IsTree ((name, entry) :: rest) ↔
    name ∉ rest.map Prod.fst ∧ '/' ∉ name.toList ∧ (∀ entries, entry = .directory entries → IsTree entries) ∧
      IsTree rest := by
  constructor
  · rintro ⟨distinct, names, within⟩
    obtain ⟨new, distinct⟩ := List.nodup_cons.mp distinct
    obtain ⟨plain, names⟩ := List.forall_mem_cons.mp names
    refine ⟨new, plain, fun entries same => ?_, distinct, names, fun name entries mem => ?_⟩
    · exact within name entries (same ▸ List.mem_cons_self)
    · exact within name entries (List.mem_cons_of_mem _ mem)
  · rintro ⟨new, plain, inside, distinct, names, within⟩
    refine ⟨List.nodup_cons.mpr ⟨new, distinct⟩, List.forall_mem_cons.mpr ⟨plain, names⟩, fun other entries mem => ?_⟩
    rcases List.mem_cons.mp mem with same | mem
    · exact inside entries (Prod.mk.inj same).2.symm
    · exact within other entries mem

theorem isTree_file {name : String} (plain : '/' ∉ name.toList) (content : Content) : IsTree [(name, .file content)] := by
  refine isTree_cons.mpr ⟨List.not_mem_nil, plain, fun entries same => ?_, isTree_nil⟩
  cases same

theorem LeadsTo.first {d : Directory} {place : FilePlace} {content : Content} (h : LeadsTo d place content) :
    ∃ name ∈ d.map Prod.fst, place.names.head? = some name := by
  cases h with
  | here mem _ => exact ⟨_, List.mem_map_of_mem mem, rfl⟩
  | inside mem _ _ => exact ⟨_, List.mem_map_of_mem mem, rfl⟩

mutual
theorem nodup_filesOf (name : String) : ∀ entry : Entry, (∀ entries, entry = .directory entries → IsTree entries) →
    ((filesOf name entry).map Prod.fst).Nodup
  | .file _, _ => by
      rw [filesOf]
      exact List.nodup_singleton _
  | .directory entries, tree => by
      have distinct := nodup_filesBelow entries (tree entries rfl)
      have same : (filesOf name (.directory entries)).map Prod.fst =
          ((filesBelow entries).map Prod.fst).map (.within name) := by
        rw [filesOf, List.map_map, List.map_map]
        rfl
      rw [same]
      refine distinct.map fun p q same => ?_
      obtain ⟨directories, name'⟩ := p
      simpa [FilePlace.within, FilePlace.ext_iff] using same
  | .link _, _ => by
      rw [filesOf]
      exact List.nodup_nil

/-- No place is listed twice. -/
theorem nodup_filesBelow : ∀ d : List (String × Entry), IsTree d → ((filesBelow d).map Prod.fst).Nodup
  | [], _ => by
      rw [filesBelow]
      exact List.nodup_nil
  | (name, entry) :: rest, tree => by
      obtain ⟨new, -, inside, tree⟩ := isTree_cons.mp tree
      rw [filesBelow, List.map_append]
      refine List.Nodup.append ?_ (nodup_filesBelow rest tree) ?_
      · split
        · exact List.nodup_nil
        · exact nodup_filesOf name entry inside
      · intro place here behind
        obtain ⟨⟨_, content⟩, mem, rfl⟩ := List.mem_map.mp here
        obtain ⟨⟨_, content'⟩, mem', same⟩ := List.mem_map.mp behind
        obtain rfl : _ = _ := same
        split at mem
        · cases mem
        · next shown =>
            have leads := (mem_filesOf _ _ name (Bool.eq_false_iff.mpr shown) entry).mp mem
            obtain ⟨first, one, head⟩ := leads.first
            obtain ⟨other, known, head'⟩ := ((mem_filesBelow _ _ rest).mp mem').first
            obtain rfl := List.mem_singleton.mp one
            obtain rfl := Option.some.inj (head.symm.trans head')
            exact new known
end

theorem LeadsTo.names {d : Directory} {place : FilePlace} {content : Content} (h : LeadsTo d place content)
    (tree : IsTree d) : ∀ name ∈ place.names, '/' ∉ name.toList := by
  induction h with
  | here mem _ =>
      obtain ⟨-, names, -⟩ := tree
      intro name one
      obtain rfl := List.mem_singleton.mp one
      exact names _ mem
  | inside mem _ _ ih =>
      obtain ⟨-, names, within⟩ := tree
      exact List.forall_mem_cons.mpr ⟨names _ mem, ih (within _ _ mem)⟩

/-- What a file is at a place is one content. -/
theorem LeadsTo.unique {d : Directory} {place : FilePlace} {content other : Content} (tree : IsTree d)
    (h : LeadsTo d place content) (h' : LeadsTo d place other) : content = other := by
  have distinct := nodup_filesBelow d tree
  have same := List.inj_on_of_nodup_map distinct ((mem_filesBelow _ _ d).mpr h) ((mem_filesBelow _ _ d).mpr h') rfl
  exact (Prod.mk.inj same).2

/-! Scan paths. -/

theorem splitAtSlashes_piece {piece : List Char} (h : '/' ∉ piece) : splitAtSlashes piece = [piece] := by
  induction piece with
  | nil => rfl
  | cons c piece ih =>
      rw [List.mem_cons, not_or] at h
      rw [splitAtSlashes, if_neg (Ne.symm h.1), ih h.2]

theorem splitAtSlashes_append {piece : List Char} (h : '/' ∉ piece) (rest : List Char) :
    splitAtSlashes (piece ++ '/' :: rest) = piece :: splitAtSlashes rest := by
  induction piece with
  | nil => rw [List.nil_append, splitAtSlashes, if_pos rfl]
  | cons c piece ih =>
      rw [List.mem_cons, not_or] at h
      rw [List.cons_append, splitAtSlashes, if_neg (Ne.symm h.1), ih h.2]

theorem splitAtSlashes_names {names : List String} (h : ∀ name ∈ names, '/' ∉ name.toList) {piece : List Char}
    (hp : '/' ∉ piece) : splitAtSlashes (piece ++ names.flatMap fun name => '/' :: name.toList) =
      piece :: names.map String.toList := by
  induction names generalizing piece with
  | nil => rw [List.flatMap_nil, List.append_nil, splitAtSlashes_piece hp]; rfl
  | cons name names ih =>
      obtain ⟨first, rest⟩ := List.forall_mem_cons.mp h
      rw [List.flatMap_cons, List.cons_append, splitAtSlashes_append hp, ih rest first]
      rfl

/-- The names on the way to a file can be read off its scan path. -/
theorem pieces_scanPath {place : FilePlace} (h : ∀ name ∈ place.names, '/' ∉ name.toList) :
    Path.pieces place.scanPath = "" :: place.names := by
  have split : splitAtSlashes ([] ++ place.names.flatMap fun name => '/' :: name.toList) = _ :=
    splitAtSlashes_names h List.not_mem_nil
  rw [List.nil_append] at split
  rw [Path.pieces, FilePlace.scanPath, String.toList_ofList, split, List.map_cons, List.map_map]
  simp [Function.comp_def]

theorem scanPath_injective {p q : FilePlace} (hp : ∀ name ∈ p.names, '/' ∉ name.toList)
    (hq : ∀ name ∈ q.names, '/' ∉ name.toList) (same : p.scanPath = q.scanPath) : p = q := by
  have pieces := pieces_scanPath hp
  rw [same, pieces_scanPath hq] at pieces
  obtain ⟨directories, name⟩ := List.append_inj' (List.cons.inj pieces).2 rfl
  exact FilePlace.ext directories.symm (List.singleton_inj.mp name).symm

/-- No two files of a tree have one scan path. -/
theorem nodup_scanPaths {d : Directory} (tree : IsTree d) : ((filesBelow d).map fun file => file.1.scanPath).Nodup := by
  have distinct := nodup_filesBelow d tree
  have places : (((filesBelow d).map Prod.fst).map FilePlace.scanPath).Nodup := by
    refine distinct.map_on fun p hp q hq same => ?_
    obtain ⟨⟨_, content⟩, mem, rfl⟩ := List.mem_map.mp hp
    obtain ⟨⟨_, content'⟩, mem', rfl⟩ := List.mem_map.mp hq
    have leads := (mem_filesBelow _ _ d).mp mem
    have leads' := (mem_filesBelow _ _ d).mp mem'
    exact scanPath_injective (leads.names tree) (leads'.names tree) same
  rwa [List.map_map] at places

theorem scanPath_within (directory : String) (place : FilePlace) :
    (place.within directory).scanPath = "/" ++ directory ++ place.scanPath := by
  rw [← String.toList_inj]
  simp [FilePlace.scanPath, FilePlace.within, FilePlace.names]

theorem pickAt_eq (path scanPath : String) (content : Content) (name : String) (directories : List String) :
    pickAt path scanPath content name directories =
      { FilePlace.pick ⟨directories, name⟩ path content with
        scanPath := scanPath ++ FilePlace.scanPath ⟨directories, name⟩ } := by
  induction directories generalizing path scanPath with
  | nil =>
      have own : FilePlace.scanPath ⟨[], name⟩ = "/" ++ name := by
        rw [← String.toList_inj]
        simp [FilePlace.scanPath, FilePlace.names]
      rw [own, ← String.append_assoc]
      rfl
  | cons directory directories ih =>
      have inner := scanPath_within directory ⟨directories, name⟩
      rw [FilePlace.within] at inner
      rw [pickAt, ih, inner, String.append_assoc, String.append_assoc, String.append_assoc]
      rfl

theorem pickOfFile_eq (source : String) (file : FilePlace × Content) :
    pickOfFile source "" file = file.1.pick source file.2 := by
  rw [pickOfFile, pickAt_eq, String.empty_append]
  rfl

/-! The survey of a directory. -/

/-- The files of a directory in the order in which they are picked. -/
def filesInOrder (path : String) (d : Directory) : List (FilePlace × Content) :=
  (filesBelow d).mergeSort fun f g => ((pickOfFile path "" f).compare (pickOfFile path "" g)).isLE

theorem filesInOrder_perm (path : String) (d : Directory) : (filesInOrder path d).Perm (filesBelow d) :=
  List.mergeSort_perm _ _

theorem picks_ofSource (source : String) (byLink : Bool) (d : Directory) :
    (Survey.ofSource source (.directory byLink d)).picks =
      (filesInOrder source d).map fun file => file.1.pick source file.2 := by
  have sorted : (filesInOrder source d).map (pickOfFile source "") =
      ((filesBelow d).map (pickOfFile source "")).mergeSort fun p q => (p.compare q).isLE :=
    List.map_mergeSort fun _ _ _ _ => rfl
  have picked : (filesInOrder source d).map (pickOfFile source "") =
      (filesInOrder source d).map fun file => file.1.pick source file.2 :=
    List.map_congr_left fun file _ => pickOfFile_eq source file
  rw [← picked, sorted, ← picks_below]
  rfl

/-! Changes. -/

/-- One file is written, added or removed at a place; directories on the way may be made for it or go with it. -/
inductive ChangedAt : FilePlace → Directory → Directory → Prop
  | write {name : String} {before after : Directory} {content other : Content} :
      ChangedAt ⟨[], name⟩ (before ++ (name, .file content) :: after) (before ++ (name, .file other) :: after)
  | add {name : String} {before after : Directory} {content : Content} :
      ChangedAt ⟨[], name⟩ (before ++ after) (before ++ (name, .file content) :: after)
  | make {directory : String} {before after entries : Directory} {place : FilePlace} : ChangedAt place [] entries →
      ChangedAt (place.within directory) (before ++ after) (before ++ (directory, .directory entries) :: after)
  | inside {directory : String} {before after entries entries' : Directory} {place : FilePlace} :
      ChangedAt place entries entries' → ChangedAt (place.within directory)
        (before ++ (directory, .directory entries) :: after) (before ++ (directory, .directory entries') :: after)
  | undo {place : FilePlace} {d d' : Directory} : ChangedAt place d d' → ChangedAt place d' d

theorem leadsTo_between {before after : Directory} {entry : String × Entry} {place : FilePlace} {content : Content} :
    LeadsTo (before ++ entry :: after) place content ↔
      LeadsTo (before ++ after) place content ∨ LeadsTo [entry] place content := by
  rw [← List.singleton_append, leadsTo_append, leadsTo_append, leadsTo_append, or_assoc, or_comm (a := LeadsTo after _ _)]

/-- What is at other places stays there. -/
theorem ChangedAt.leadsTo {place : FilePlace} {d d' : Directory} (h : ChangedAt place d d') {other : FilePlace}
    (apart : other ≠ place) (content : Content) : LeadsTo d other content ↔ LeadsTo d' other content := by
  induction h generalizing other with
  | write =>
      have absent : ∀ name c, other ≠ ⟨[], name⟩ → ¬ LeadsTo [(name, .file c)] other content :=
        fun _ _ apart h => apart (leadsTo_file.mp h).2.1
      rw [leadsTo_between, leadsTo_between, or_iff_left (absent _ _ apart), or_iff_left (absent _ _ apart)]
  | add =>
      rw [leadsTo_between, or_iff_left fun h => apart (leadsTo_file.mp h).2.1]
  | make _ ih =>
      rw [leadsTo_between, or_iff_left]
      intro h
      obtain ⟨-, inner, rfl, tail⟩ := leadsTo_directory.mp h
      exact leadsTo_nil ((ih fun same => apart (congrArg _ same)).mpr tail)
  | inside _ ih =>
      rw [leadsTo_between, leadsTo_between, leadsTo_directory, leadsTo_directory]
      refine or_congr_right (and_congr_right fun _ => exists_congr fun inner => and_congr_right ?_)
      rintro rfl
      exact ih fun same => apart (congrArg _ same)
  | undo _ ih => exact (ih apart).symm

end StyleAudit
