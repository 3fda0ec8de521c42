import Mathlib.Data.String.Basic
import StyleAudit.Findings.Record
/-!
Buckets: grouping a record loses nothing, adds nothing, and keeps the order of the entries of each key.
-/
namespace StyleAudit

section
variable {κ α : Type} [DecidableEq κ]

/-! Entries of a key. -/

theorem entriesOf_cons (key k : κ) (entry : α) (record : List (κ × α)) :
    entriesOf k ((key, entry) :: record) = if key = k then entry :: entriesOf k record else entriesOf k record := by
  by_cases same : key = k <;> simp [entriesOf, same]

theorem entriesOf_append (key : κ) (record more : List (κ × α)) :
    entriesOf key (record ++ more) = entriesOf key record ++ entriesOf key more :=
  List.filterMap_append

/-- Entries that share a key are all of that key or none. -/
theorem entriesOf_map (key k : κ) (entries : List α) :
    entriesOf key (entries.map (k, ·)) = if k = key then entries else [] := by
  induction entries with
  | nil => simp [entriesOf]
  | cons entry rest ih =>
      rw [List.map_cons, entriesOf_cons, ih]
      split <;> rfl

/-- What buckets hold for a key. -/
def bucketOf (key : κ) (buckets : List (κ × List α)) : List α :=
  buckets.flatMap fun b => if b.1 = key then b.2 else []

theorem bucketOf_cons (key : κ) (b : κ × List α) (buckets : List (κ × List α)) :
    bucketOf key (b :: buckets) = (if b.1 = key then b.2 else []) ++ bucketOf key buckets :=
  List.flatMap_cons

theorem bucketOf_of_keys {key : κ} {buckets : List (κ × List α)} (other : ∀ b ∈ buckets, b.1 ≠ key) :
    bucketOf key buckets = [] := by
  rw [bucketOf, List.flatMap_eq_nil_iff]
  intro b member
  rw [if_neg (other b member)]

variable [LT κ]

/-- Buckets are in the order of their keys, so that no two have one key, and none is empty. -/
structure AreBuckets (buckets : List (κ × List α)) : Prop where
  ordered : buckets.Pairwise fun a b => a.1 < b.1
  inhabited : ∀ b ∈ buckets, b.2 ≠ []

theorem AreBuckets.mem_iff [Std.Irrefl (α := κ) (· < ·)] {buckets : List (κ × List α)} (h : AreBuckets buckets) {key : κ} {entries : List α} :
    (key, entries) ∈ buckets ↔ entries = bucketOf key buckets ∧ entries ≠ [] := by
  obtain ⟨ordered, inhabited⟩ := h
  induction ordered with
  | nil => simp [bucketOf]
  | @cons first rest above ordered ih =>
      have later := ih (List.forall_mem_cons.mp inhabited).2
      rw [List.mem_cons, bucketOf_cons]
      by_cases here : first.1 = key
      · -- the keys behind are greater, so nothing more is held for this one
        have nothing : bucketOf key rest = [] := by
          refine bucketOf_of_keys ?_
          intro b member same
          have greater := above b member
          rw [same, here] at greater
          exact irrefl_of (· < ·) key greater
        rw [nothing] at later
        rw [if_pos here, nothing, List.append_nil, later]
        constructor
        · rintro (rfl | ⟨rfl, some⟩)
          · exact ⟨rfl, inhabited _ List.mem_cons_self⟩
          · exact absurd rfl some
        · rintro ⟨rfl, -⟩
          exact .inl (Prod.ext here.symm rfl)
      · rw [if_neg here, List.nil_append, ← later]
        refine or_iff_right ?_
        rintro rfl
        exact here rfl

/-! Entries are filed under their keys. -/

variable [DecidableLT κ]

theorem bucketOf_addEntry (key k : κ) (entry : α) (buckets : List (κ × List α)) :
    bucketOf k (addEntry key entry buckets) =
      if key = k then entry :: bucketOf k buckets else bucketOf k buckets := by
  induction buckets with
  | nil =>
      rw [addEntry, bucketOf_cons, bucketOf, List.flatMap_nil]
      split <;> rfl
  | cons b rest ih =>
      obtain ⟨k', entries⟩ := b
      rw [addEntry]
      by_cases same : key = k'
      · rw [if_pos same, bucketOf_cons, bucketOf_cons, same]
        split <;> rfl
      · rw [if_neg same]
        by_cases before : key < k'
        · rw [if_pos before, bucketOf_cons]
          split <;> rfl
        · rw [if_neg before, bucketOf_cons, bucketOf_cons, ih]
          by_cases here : k' = k
          · have away : key ≠ k := fun same' => same (same'.trans here.symm)
            rw [if_neg away, if_neg away]
          · rw [if_neg here, List.nil_append, List.nil_append]

theorem bucketOf_grouped (key : κ) (record : List (κ × α)) : bucketOf key (grouped record) = entriesOf key record := by
  induction record with
  | nil => rfl
  | cons first rest ih =>
      obtain ⟨k, entry⟩ := first
      rw [grouped, bucketOf_addEntry, entriesOf_cons, ih]

theorem total_addEntry (key : κ) (entry : α) (buckets : List (κ × List α)) :
    Findings.total (addEntry key entry buckets) = Findings.total buckets + 1 := by
  induction buckets with
  | nil => rfl
  | cons b rest ih =>
      obtain ⟨k, entries⟩ := b
      rw [addEntry]
      split
      · simp only [Findings.total, List.map_cons, List.foldr_cons, List.length_cons]
        omega
      · split
        · simp only [Findings.total, List.map_cons, List.foldr_cons, List.length_cons, List.length_nil]
          omega
        · simp only [Findings.total, List.map_cons, List.foldr_cons] at ih ⊢
          omega

/-- Buckets hold as many entries as were recorded. -/
theorem total_grouped (record : List (κ × α)) : Findings.total (grouped record) = record.length := by
  induction record with
  | nil => rfl
  | cons first rest ih =>
      obtain ⟨k, entry⟩ := first
      rw [grouped, total_addEntry, ih, List.length_cons]

theorem grouped_ne_nil {record : List (κ × α)} (some : record ≠ []) : grouped record ≠ [] := by
  intro none
  have counted := total_grouped record
  rw [none] at counted
  exact some (List.length_eq_zero_iff.mp counted.symm)

/-! Each key has one bucket. -/

theorem key_of_mem_addEntry {key : κ} {entry : α} {buckets : List (κ × List α)} {b : κ × List α}
    (h : b ∈ addEntry key entry buckets) : b.1 = key ∨ ∃ b' ∈ buckets, b'.1 = b.1 := by
  induction buckets with
  | nil => exact .inl (congrArg Prod.fst (List.mem_singleton.mp h))
  | cons first rest ih =>
      obtain ⟨k, entries⟩ := first
      rw [addEntry] at h
      split at h
      · obtain rfl | member := List.mem_cons.mp h
        · exact .inr ⟨_, List.mem_cons_self, rfl⟩
        · exact .inr ⟨b, List.mem_cons_of_mem _ member, rfl⟩
      · split at h
        · obtain rfl | member := List.mem_cons.mp h
          · exact .inl rfl
          · exact .inr ⟨b, member, rfl⟩
        · obtain rfl | member := List.mem_cons.mp h
          · exact .inr ⟨_, List.mem_cons_self, rfl⟩
          · refine (ih member).imp_right ?_
            rintro ⟨b', member', same⟩
            exact ⟨b', List.mem_cons_of_mem _ member', same⟩

theorem ne_nil_of_mem_addEntry {key : κ} {entry : α} {buckets : List (κ × List α)}
    (h : ∀ b ∈ buckets, b.2 ≠ []) : ∀ b ∈ addEntry key entry buckets, b.2 ≠ [] := by
  induction buckets with
  | nil =>
      intro b member
      obtain rfl := List.mem_singleton.mp member
      exact List.cons_ne_nil _ _
  | cons first rest ih =>
      obtain ⟨k, entries⟩ := first
      obtain ⟨_, behind⟩ := List.forall_mem_cons.mp h
      rw [addEntry]
      split
      · exact List.forall_mem_cons.mpr ⟨List.cons_ne_nil _ _, behind⟩
      · split
        · exact List.forall_mem_cons.mpr ⟨List.cons_ne_nil _ _, h⟩
        · exact List.forall_mem_cons.mpr ⟨h _ List.mem_cons_self, ih behind⟩

variable [IsTrans κ (· < ·)] [Std.Trichotomous (α := κ) (· < ·)]

theorem ordered_addEntry (key : κ) (entry : α) {buckets : List (κ × List α)}
    (h : buckets.Pairwise fun a b => a.1 < b.1) : (addEntry key entry buckets).Pairwise fun a b => a.1 < b.1 := by
  induction h with
  | nil => exact List.pairwise_singleton _ _
  | @cons first rest above ordered ih =>
      obtain ⟨k, entries⟩ := first
      rw [addEntry]
      by_cases same : key = k
      · rw [if_pos same]
        exact List.pairwise_cons.mpr ⟨above, ordered⟩
      · rw [if_neg same]
        by_cases before : key < k
        · rw [if_pos before]
          refine List.pairwise_cons.mpr ⟨?_, List.pairwise_cons.mpr ⟨above, ordered⟩⟩
          intro b member
          obtain rfl | member := List.mem_cons.mp member
          · exact before
          · exact trans_of (· < ·) before (above b member)
        · rw [if_neg before]
          refine List.pairwise_cons.mpr ⟨?_, ih⟩
          intro b member
          obtain same' | ⟨b', member', same'⟩ := key_of_mem_addEntry member
          · have behind : k < key := by
              by_contra behind
              exact same (Std.Trichotomous.trichotomous key k before behind)
            exact same' ▸ behind
          · exact same' ▸ above b' member'

theorem areBuckets_grouped (record : List (κ × α)) : AreBuckets (grouped record) := by
  induction record with
  | nil => exact ⟨.nil, nofun⟩
  | cons first rest ih =>
      obtain ⟨key, entry⟩ := first
      exact ⟨ordered_addEntry key entry ih.ordered, ne_nil_of_mem_addEntry ih.inhabited⟩

/-- A bucket holds just the entries of its key, in the order of the record; each key that has entries has a bucket. -/
theorem mem_grouped [Std.Irrefl (α := κ) (· < ·)] {record : List (κ × α)} {key : κ} {entries : List α} :
    (key, entries) ∈ grouped record ↔ entries = entriesOf key record ∧ entries ≠ [] := by
  rw [(areBuckets_grouped record).mem_iff, bucketOf_grouped]

/-! The last entry of each key. -/

theorem ordered_latest (record : List (κ × α)) : (latest record).Pairwise fun p q => p.1 < q.1 := by
  refine (areBuckets_grouped record).ordered.filterMap _ ?_
  intro b b' less p found p' found'
  obtain ⟨_, -, rfl⟩ := Option.map_eq_some_iff.mp found
  obtain ⟨_, -, rfl⟩ := Option.map_eq_some_iff.mp found'
  exact less

theorem mem_latest_iff [Std.Irrefl (α := κ) (· < ·)] {record : List (κ × α)} {key : κ} {entry : α} :
    (key, entry) ∈ latest record ↔ (entriesOf key record).getLast? = some entry := by
  rw [latest, List.mem_filterMap]
  constructor
  · rintro ⟨⟨k, entries⟩, mem, found⟩
    obtain ⟨last, at_end, same⟩ := Option.map_eq_some_iff.mp found
    obtain ⟨rfl, rfl⟩ := Prod.mk.inj same
    rw [← (mem_grouped.mp mem).1, at_end]
  · intro last
    have some : entriesOf key record ≠ [] := by
      intro none
      rw [none] at last
      cases last
    exact ⟨(key, entriesOf key record), mem_grouped.mpr ⟨rfl, some⟩, congrArg (Option.map (key, ·)) last⟩

end

/-! Buckets emptied again. -/

section
variable {κ α : Type}

/-- The entries of buckets, each with its key. -/
def ungrouped (buckets : List (κ × List α)) : List (κ × α) :=
  buckets.flatMap fun (key, entries) => entries.map (key, ·)

theorem flatMap_ungrouped {β : Type} (g : κ × α → List β) (buckets : List (κ × List α)) :
    (ungrouped buckets).flatMap g = buckets.flatMap fun (key, entries) => entries.flatMap fun e => g (key, e) := by
  rw [ungrouped, List.flatMap_assoc]
  exact List.flatMap_congr fun b _ => List.flatMap_map ..

variable [DecidableEq κ] [LT κ] [DecidableLT κ]

theorem ungrouped_addEntry (key : κ) (entry : α) (buckets : List (κ × List α)) :
    (ungrouped (addEntry key entry buckets)).Perm ((key, entry) :: ungrouped buckets) := by
  induction buckets with
  | nil => exact .refl _
  | cons b rest ih =>
      obtain ⟨k, entries⟩ := b
      rw [addEntry]
      split
      · next same => exact same ▸ .refl _
      · split
        · exact .refl _
        · exact (ih.append_left _).trans List.perm_middle

/-- Buckets hold what was recorded, in some order. -/
theorem ungrouped_grouped (record : List (κ × α)) : (ungrouped (grouped record)).Perm record := by
  induction record with
  | nil => exact .refl _
  | cons first rest ih => exact (ungrouped_addEntry first.1 first.2 _).trans (ih.cons first)

end
end StyleAudit
