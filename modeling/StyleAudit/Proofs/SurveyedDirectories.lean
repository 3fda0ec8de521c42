import StyleAudit.Proofs.SurveyedFiles
/-!
The directories of a source. A survey counts each directory that no hidden name leads to, and counts it once; what a path
leads to in a tree as it stands on a disk is itself such a tree.
-/
namespace StyleAudit

open Files

/-- There is a directory at the end of the names, below a directory. None of the names is hidden, and none is that of
a link. -/
inductive HoldsDirectory : Directory → List String → Prop
  | here {d entries : Directory} {name : String} : (name, .directory entries) ∈ d → isHidden name = false →
      HoldsDirectory d [name]
  | inside {d entries : Directory} {name : String} {names : List String} : (name, .directory entries) ∈ d →
      isHidden name = false → HoldsDirectory entries names → HoldsDirectory d (name :: names)

/-! The directories below a directory, listed. -/

mutual
/-- The directories that a name leads to. -/
def directoriesOf (name : String) : Entry → List (List String)
  | .directory entries => [name] :: (directoriesBelow entries).map (name :: ·)
  | .file _ | .link _ => []

def directoriesBelow : List (String × Entry) → List (List String)
  | [] => []
  | (name, entry) :: rest => (if isHidden name then [] else directoriesOf name entry) ++ directoriesBelow rest
end

mutual
theorem directories_ofEntry (path scanPath name : String) : ∀ entry : Entry,
    (Survey.ofEntry path scanPath name entry).directories = (directoriesOf name entry).length
  | .file _ => by rw [Survey.ofEntry, directoriesOf]; rfl
  | .directory entries => by
      rw [Survey.ofEntry, directoriesOf, Survey.directories_append, directories_below, List.length_cons, List.length_map,
        Nat.add_comm]
  | .link _ => by rw [Survey.ofEntry, directoriesOf]; rfl

/-- A survey counts the directories below a directory. -/
theorem directories_below (path scanPath : String) : ∀ d : List (String × Entry),
    (Survey.below path scanPath d).directories = (directoriesBelow d).length
  | [] => by rw [Survey.below, directoriesBelow]; rfl
  | (name, entry) :: rest => by
      rw [Survey.below, directoriesBelow, Survey.directories_append, List.length_append,
        directories_below path scanPath rest]
      congr 1
      split
      · rfl
      · exact directories_ofEntry path scanPath name entry
end

theorem holdsDirectory_iff {d : Directory} {place : List String} :
    HoldsDirectory d place ↔ ∃ name entries names, place = name :: names ∧ (name, .directory entries) ∈ d ∧
      isHidden name = false ∧ (names = [] ∨ HoldsDirectory entries names) := by
  constructor
  · intro h
    cases h with
    | here mem shown => exact ⟨_, _, [], rfl, mem, shown, .inl rfl⟩
    | inside mem shown tail => exact ⟨_, _, _, rfl, mem, shown, .inr tail⟩
  · rintro ⟨name, entries, names, rfl, mem, shown, rfl | tail⟩
    · exact .here mem shown
    · exact .inside mem shown tail

mutual
theorem mem_directoriesOf (name : String) : ∀ (entry : Entry) (place : List String),
    place ∈ directoriesOf name entry ↔ ∃ entries names, entry = .directory entries ∧ place = name :: names ∧
      (names = [] ∨ HoldsDirectory entries names)
  | .file _, _ | .link _, _ => by
      rw [directoriesOf]
      exact iff_of_false List.not_mem_nil fun ⟨_, _, same, _⟩ => by cases same
  | .directory entries, place => by
      rw [directoriesOf, List.mem_cons, List.mem_map]
      constructor
      · rintro (rfl | ⟨names, mem, rfl⟩)
        · exact ⟨entries, [], rfl, rfl, .inl rfl⟩
        · exact ⟨entries, names, rfl, rfl, .inr ((mem_directoriesBelow entries names).mp mem)⟩
      · rintro ⟨_, names, same, rfl, tail⟩
        obtain rfl := Entry.directory.inj same
        rcases tail with rfl | tail
        · exact .inl rfl
        · exact .inr ⟨names, (mem_directoriesBelow entries names).mpr tail, rfl⟩

/-- The list is that of all directories that no hidden name leads to. -/
theorem mem_directoriesBelow : ∀ (d : List (String × Entry)) (place : List String),
    place ∈ directoriesBelow d ↔ HoldsDirectory d place
  | [], _ => by
      rw [directoriesBelow, holdsDirectory_iff]
      exact iff_of_false List.not_mem_nil fun ⟨_, _, _, _, mem, _⟩ => by cases mem
  | (name, entry) :: rest, place => by
      rw [directoriesBelow, List.mem_append, mem_directoriesBelow rest place, holdsDirectory_iff, holdsDirectory_iff]
      constructor
      · rintro (here | ⟨other, entries, names, rfl, mem, tail⟩)
        · split at here
          · cases here
          · next shown =>
              obtain ⟨entries, names, rfl, rfl, tail⟩ := (mem_directoriesOf name entry place).mp here
              exact ⟨name, entries, names, rfl, List.mem_cons_self, Bool.eq_false_iff.mpr shown, tail⟩
        · exact ⟨other, entries, names, rfl, List.mem_cons_of_mem _ mem, tail⟩
      · rintro ⟨other, entries, names, rfl, mem, shown, tail⟩
        rcases List.mem_cons.mp mem with same | mem
        · obtain ⟨sameName, sameEntry⟩ := Prod.mk.inj same
          refine .inl ?_
          rw [sameName] at shown ⊢
          rw [if_neg (Bool.eq_false_iff.mp shown)]
          exact (mem_directoriesOf name entry _).mpr ⟨entries, names, sameEntry.symm, rfl, tail⟩
        · exact .inr ⟨other, entries, names, rfl, mem, shown, tail⟩
end

mutual
theorem nodup_directoriesOf (name : String) : ∀ entry : Entry,
    (∀ entries, entry = .directory entries → IsTree entries) → (directoriesOf name entry).Nodup
  | .file _, _ | .link _, _ => by
      rw [directoriesOf]
      exact List.nodup_nil
  | .directory entries, tree => by
      rw [directoriesOf, List.nodup_cons]
      constructor
      · rw [List.mem_map]
        rintro ⟨names, mem, same⟩
        obtain rfl := (List.cons.inj same).2
        obtain ⟨_, _, _, same, _⟩ := holdsDirectory_iff.mp ((mem_directoriesBelow entries []).mp mem)
        cases same
      · exact (nodup_directoriesBelow entries (tree entries rfl)).map (List.cons_injective (a := name))

/-- No directory is listed twice. -/
theorem nodup_directoriesBelow : ∀ d : List (String × Entry), IsTree d → (directoriesBelow d).Nodup
  | [], _ => by
      rw [directoriesBelow]
      exact List.nodup_nil
  | (name, entry) :: rest, tree => by
      obtain ⟨new, -, inside, tree⟩ := isTree_cons.mp tree
      rw [directoriesBelow]
      refine List.Nodup.append ?_ (nodup_directoriesBelow rest tree) ?_
      · split
        · exact List.nodup_nil
        · exact nodup_directoriesOf name entry inside
      · intro place here behind
        split at here
        · cases here
        · obtain ⟨_, _, -, rfl, -⟩ := (mem_directoriesOf name entry place).mp here
          obtain ⟨other, _, _, same, mem, -⟩ := holdsDirectory_iff.mp ((mem_directoriesBelow rest _).mp behind)
          obtain ⟨rfl, -⟩ := List.cons.inj same
          exact new (List.mem_map_of_mem mem)
end

/-! What a path leads to. -/

theorem isTree_lookup {d entries : Directory} {name : String} (tree : IsTree d)
    (found : List.lookup name d = some (.directory entries)) : IsTree entries := by
  obtain ⟨front, back, rfl, -⟩ := List.lookup_eq_some_iff.mp found
  obtain ⟨-, -, within⟩ := tree
  exact within name entries (List.mem_append_right _ List.mem_cons_self)

/-- What pieces of a path lead to in a tree is a tree, also above and behind links. -/
theorem isTree_locate {following : Bool} {links : Nat} {above : List Directory} {here : Directory}
    {pieces : List String} {entries : Directory} (tree : IsTree here) (trees : ∀ d ∈ above, IsTree d)
    (found : Directory.locate following links above here pieces = some (.directory entries)) : IsTree entries := by
  fun_induction Directory.locate following links above here pieces with
  | case1 links above here => exact Entry.directory.inj (Option.some.inj found) ▸ tree
  | case2 links above here piece rest idle ih => exact ih tree trees found
  | case4 links here rest up more idle ih =>
      obtain ⟨up, more⟩ := List.forall_mem_cons.mp trees
      exact ih up more found
  | case6 links above here piece rest idle down inner known ih =>
      exact ih (isTree_lookup tree known) (List.forall_mem_cons.mpr ⟨tree, trees⟩) found
  | case12 above here piece rest idle down target known on more inside ih => exact ih tree trees found
  | _ => cases found

/-- What a source is found to hold is a tree, if it is found in one. -/
theorem isTree_find {d : Directory} {name : String} {byLink : Bool} {entries : Directory} (tree : IsTree d)
    (found : Source.find? d name = some (.directory byLink entries)) : IsTree entries := by
  have located : d.find? true name = some (.directory entries) := by
    rw [Source.find?] at found
    split at found
    · cases found
    · next inner known =>
        obtain ⟨-, same⟩ := Source.directory.inj (Option.some.inj found)
        rw [known, same]
    · cases found
  rw [Directory.find?] at located
  split at located
  · cases located
  · exact isTree_locate tree (List.forall_mem_nil _) located

end StyleAudit
