import StyleAudit.Proofs.Characters
import StyleAudit.Proofs.Registers
/-!
Consistent uses: whatever parts are classified one after the other, and under whatever vocabulary, each bucket has a name
of the kind it is for, and each part goes to the end of one bucket or to none.
-/
namespace StyleAudit

open Selector (Part)

/-- Whether a name begins with a word and a hyphen. -/
def BeginsWith (word name : String) : Prop := (word ++ "-").toList <+: name.toList

/-- A word of so many small letters. -/
structure IsShortWord (size : Nat) (word : String) : Prop where
  size : word.toList.length = size
  small : ∀ c ∈ word.toList, c.isLower = true

/-- What the vocabulary says of the name that a use is filed under, and of the token that is filed. -/
def Use.IsApt (v : Vocabulary) : Use → Prop
  | .element name => name.toLower ∉ v.posh
  | .microformat name => name.toLower = name ∧ name ∈ v.microformats
  | .wellKnown name =>
    name ∈ v.microformats2 ∧ name ∉ v.microformats ∧ ∃ start ∈ microformat2Starts, BeginsWith start name
  | .wellKnownFormat name =>
    name ∉ v.microformats2 ∧ name ∉ v.microformats ∧ ∃ start ∈ microformat2Starts, BeginsWith start name
  | .oneLetter letter token =>
    (IsShortWord 1 letter ∧ letter ∉ ["h", "e", "u", "p"]) ∧ BeginsWith letter token.toLower ∧
      token.toLower ∉ v.microformats
  | .twoLetters letters token =>
    (IsShortWord 2 letters ∧ letters ≠ "dt") ∧ BeginsWith letters token.toLower ∧ token.toLower ∉ v.microformats

/-! Parts of selectors. -/

theorem takeWhile_prefix_of_mem {c : Char} {text : List Char} (h : c ∈ text) : text.takeWhile (· ≠ c) ++ [c] <+: text := by
  induction text with
  | nil => exact absurd h List.not_mem_nil
  | cons d rest ih =>
      by_cases same : d = c
      · subst same
        rw [List.takeWhile_cons_of_neg (by simp)]
        exact ⟨rest, rfl⟩
      · have behind : c ∈ rest := (List.mem_cons.mp h).resolve_left (Ne.symm same)
        rw [List.takeWhile_cons_of_pos (by simpa using same)]
        exact List.cons_prefix_cons.mpr ⟨rfl, ih behind⟩

/-- What stands in front of the first hyphen. -/
theorem of_shortStart? {name start : String} (h : shortStart? name = some start) :
    BeginsWith start name ∧ (IsShortWord 1 start ∨ IsShortWord 2 start) := by
  rw [shortStart?] at h
  split at h
  · next short =>
      obtain ⟨hyphen, size, small⟩ := short
      obtain rfl := Option.some.inj h
      refine ⟨?_, ?_⟩
      · rw [BeginsWith, String.toList_append, String.toList_ofList]
        exact takeWhile_prefix_of_mem hyphen
      · refine size.imp (fun one => ⟨?_, ?_⟩) (fun two => ⟨?_, ?_⟩)
        all_goals rw [String.toList_ofList]
        · exact one
        · exact List.all_eq_true.mp small
        · exact two
        · exact List.all_eq_true.mp small
  · cases h

theorem Use.isApt_of_class {v : Vocabulary} {token : String} {use : Use} (h : classUse? v token = some use) :
    use.IsApt v := by
  rw [classUse?] at h
  by_cases classic : v.isMicroformat token.toLower = true
  · rw [if_pos classic] at h
    obtain rfl := Option.some.inj h
    exact ⟨Selector.toLower_toLower token, List.contains_iff_mem.mp classic⟩
  · have unlisted : token.toLower ∉ v.microformats := fun listed => classic (List.contains_iff_mem.mpr listed)
    rw [if_neg classic] at h
    cases short : shortStart? token.toLower with
    | none =>
        rw [short] at h
        cases h
    | some start =>
        obtain ⟨begins, size⟩ := of_shortStart? short
        rw [short] at h
        dsimp only at h
        split at h
        · next reserved =>
            obtain rfl := Option.some.inj h
            split
            · next known => exact ⟨List.contains_iff_mem.mp known, unlisted, start, reserved, begins⟩
            · next unknown =>
                exact ⟨fun known => unknown (List.contains_iff_mem.mpr known), unlisted, start, reserved, begins⟩
        · -- the start is none of those of microformats2, so that its size says which bucket it is for
          next other =>
            obtain rfl := Option.some.inj h
            split
            · next two =>
                have word : IsShortWord 2 start := size.resolve_left fun one => by
                  have counted := one.size
                  rw [String.length_toList] at counted
                  omega
                refine ⟨⟨word, ?_⟩, begins, unlisted⟩
                rintro rfl
                exact other (by decide)
            · next two =>
                have word : IsShortWord 1 start := size.resolve_right fun two' =>
                  two (String.length_toList.symm.trans two'.size)
                refine ⟨⟨word, fun listed => other ?_⟩, begins, unlisted⟩
                have inside : ["h", "e", "u", "p"] ⊆ microformat2Starts := by decide
                exact inside listed

/-- A part is only ever filed where it belongs, however deep its class name stands in the arguments of pseudo-classes. -/
theorem Use.isApt_of_part {v : Vocabulary} {part : Part} {use : Use} (h : partUse? v part = some use) : use.IsApt v := by
  induction part with
  | element name =>
      rw [partUse?] at h
      split at h
      · cases h
      · next away =>
          obtain rfl := Option.some.inj h
          exact fun listed => away (List.contains_iff_mem.mpr listed)
  | className name => exact isApt_of_class h
  | pseudoFunction name argument ih => exact ih h
  | id | hasAttribute | pseudoClass | pseudoElement | universal | position | language => cases h

/-! Calls. -/

/-- The findings with the part of a selector on a line classified as well. -/
def Findings.classify (v : Vocabulary) (f : Findings) (call : Part × Nat) : Findings :=
  f ++ .ofUses call.2 (partUse? v call.1).toList

/-- The findings of parts with their lines, classified one after the other. -/
def classified (v : Vocabulary) (calls : List (Part × Nat)) : Findings := calls.foldl (·.classify v) {}

theorem classified_snoc (v : Vocabulary) (calls : List (Part × Nat)) (call : Part × Nat) :
    classified v (calls ++ [call]) = (classified v calls).classify v call :=
  List.foldl_concat _ _ _ _

theorem uses_classified (v : Vocabulary) (calls : List (Part × Nat)) :
    (classified v calls).uses = calls.filterMap fun call => (partUse? v call.1).map (call.2, ·) := by
  induction calls using List.reverseRecOn with
  | nil => rfl
  | append_singleton calls call ih =>
      rw [classified_snoc, Findings.classify, Findings.uses_append, ih, List.filterMap_append]
      cases found : partUse? v call.1 with
      | none => simp [Findings.ofUses, found]
      | some use => simp [Findings.ofUses, found]

theorem isApt_of_classified {v : Vocabulary} {calls : List (Part × Nat)} {line : Nat} {use : Use}
    (h : (line, use) ∈ (classified v calls).uses) : use.IsApt v := by
  rw [uses_classified] at h
  obtain ⟨call, -, filed⟩ := List.mem_filterMap.mp h
  obtain ⟨use', found, same⟩ := Option.map_eq_some_iff.mp filed
  obtain ⟨-, rfl⟩ := Prod.mk.inj same
  exact Use.isApt_of_part found

/-! Buckets and the names in them. -/

section
variable {α : Type} {f : Findings} {pick : Nat → Use → Option (String × α)} {b : String × List α}

/-- What a bucket holds has been picked out of the uses. -/
theorem Findings.picked_of_mem_view (h : b ∈ f.view pick) :
    ∀ entry ∈ b.2, ∃ line use, (line, use) ∈ f.uses ∧ pick line use = some (b.1, entry) := by
  obtain ⟨name, entries⟩ := b
  obtain ⟨rfl, -⟩ := mem_grouped.mp h
  intro entry member
  obtain ⟨⟨name', entry'⟩, picked, same⟩ := List.mem_filterMap.mp member
  obtain ⟨⟨line, use⟩, recorded, picked⟩ := List.mem_filterMap.mp picked
  by_cases here : name' = name
  · obtain rfl : entry' = entry := Option.some.inj ((if_pos here).symm.trans same)
    exact ⟨line, use, recorded, here ▸ picked⟩
  · exact absurd ((if_neg here).symm.trans same) (by simp)

/-- A bucket is there for a use that is filed under its name. -/
theorem Findings.exists_of_mem_view (h : b ∈ f.view pick) :
    ∃ line use entry, (line, use) ∈ f.uses ∧ pick line use = some (b.1, entry) := by
  obtain ⟨entry, member⟩ := List.exists_mem_of_ne_nil _ (mem_grouped.mp h).2
  obtain ⟨line, use, recorded, picked⟩ := picked_of_mem_view h entry member
  exact ⟨line, use, entry, recorded, picked⟩

end

/-- The buckets of findings hold names that are in place there. -/
structure Findings.IsConsistent (v : Vocabulary) (f : Findings) : Prop where
  elements : ∀ b ∈ f.elements, b.1.toLower ∉ v.posh
  microformats : ∀ b ∈ f.microformats, b.1.toLower = b.1 ∧ b.1 ∈ v.microformats
  wellKnown : ∀ b ∈ f.wellKnown,
    b.1 ∈ v.microformats2 ∧ b.1 ∉ v.microformats ∧ ∃ start ∈ ["h", "e", "u", "dt", "p"], BeginsWith start b.1
  wellKnownFormat : ∀ b ∈ f.wellKnownFormat,
    b.1 ∉ v.microformats2 ∧ b.1 ∉ v.microformats ∧ ∃ start ∈ ["h", "e", "u", "dt", "p"], BeginsWith start b.1
  oneLetter : ∀ b ∈ f.oneLetter, (IsShortWord 1 b.1 ∧ b.1 ∉ ["h", "e", "u", "p"]) ∧
    ∀ hit ∈ b.2, BeginsWith b.1 hit.2.toLower ∧ hit.2.toLower ∉ v.microformats
  twoLetters : ∀ b ∈ f.twoLetters, (IsShortWord 2 b.1 ∧ b.1 ≠ "dt") ∧
    ∀ hit ∈ b.2, BeginsWith b.1 hit.2.toLower ∧ hit.2.toLower ∉ v.microformats
  buckets : (AreBuckets f.elements ∧ AreBuckets f.microformats) ∧ (AreBuckets f.wellKnown ∧ AreBuckets f.wellKnownFormat) ∧
    AreBuckets f.oneLetter ∧ AreBuckets f.twoLetters

theorem Findings.isConsistent {v : Vocabulary} {f : Findings} (h : ∀ line use, (line, use) ∈ f.uses → use.IsApt v) :
    f.IsConsistent v where
  elements b member := by
    obtain ⟨line, use, entry, recorded, picked⟩ := exists_of_mem_view member
    cases use <;> cases picked
    exact h _ _ recorded
  microformats b member := by
    obtain ⟨line, use, entry, recorded, picked⟩ := exists_of_mem_view member
    cases use <;> cases picked
    exact h _ _ recorded
  wellKnown b member := by
    obtain ⟨line, use, entry, recorded, picked⟩ := exists_of_mem_view member
    cases use <;> cases picked
    exact h _ _ recorded
  wellKnownFormat b member := by
    obtain ⟨line, use, entry, recorded, picked⟩ := exists_of_mem_view member
    cases use <;> cases picked
    exact h _ _ recorded
  oneLetter b member := by
    refine ⟨?_, fun hit filed => ?_⟩
    · obtain ⟨line, use, entry, recorded, picked⟩ := exists_of_mem_view member
      cases use <;> cases picked
      exact (h _ _ recorded).1
    · obtain ⟨line, use, recorded, picked⟩ := picked_of_mem_view member hit filed
      cases use <;> cases picked
      exact (h _ _ recorded).2
  twoLetters b member := by
    refine ⟨?_, fun hit filed => ?_⟩
    · obtain ⟨line, use, entry, recorded, picked⟩ := exists_of_mem_view member
      cases use <;> cases picked
      exact (h _ _ recorded).1
    · obtain ⟨line, use, recorded, picked⟩ := picked_of_mem_view member hit filed
      cases use <;> cases picked
      exact (h _ _ recorded).2
  buckets :=
    ⟨⟨areBuckets_grouped _, areBuckets_grouped _⟩, ⟨areBuckets_grouped _, areBuckets_grouped _⟩, areBuckets_grouped _,
      areBuckets_grouped _⟩

/-! Buckets and the order of the calls. -/

/-- Lines in the buckets of uses stand in the order in which they were filed. -/
structure Register.IsInOrder (lines : List Nat) (r : Register) : Prop where
  elements : ∀ name, (r.elements name).Sublist lines
  microformats : ∀ name, (r.microformats name).Sublist lines
  wellKnown : ∀ name, (r.wellKnown name).Sublist lines
  wellKnownFormat : ∀ name, (r.wellKnownFormat name).Sublist lines
  oneLetter : ∀ letter, ((r.oneLetter letter).map Prod.fst).Sublist lines
  twoLetters : ∀ letters, ((r.twoLetters letters).map Prod.fst).Sublist lines

namespace Register

theorem ofFindings_classify (v : Vocabulary) (f : Findings) (call : Part × Nat) :
    ofFindings (f.classify v call) = (ofFindings f).classify v call.2 call.1 := by
  rw [Findings.classify, ofFindings_append, Register.classify]
  cases partUse? v call.1 with
  | none => exact append_empty _
  | some use => exact (recordUse_eq call.2 _ use).symm

theorem IsInOrder.mono {lines more : List Nat} {r : Register} (h : r.IsInOrder lines) (sub : lines.Sublist more) :
    r.IsInOrder more where
  elements name := (h.elements name).trans sub
  microformats name := (h.microformats name).trans sub
  wellKnown name := (h.wellKnown name).trans sub
  wellKnownFormat name := (h.wellKnownFormat name).trans sub
  oneLetter letter := (h.oneLetter letter).trans sub
  twoLetters letters := (h.twoLetters letters).trans sub

theorem sublist_fileUnder {buckets : String → List Nat} {lines : List Nat} (h : ∀ k, (buckets k).Sublist lines)
    (key : String) (line : Nat) (k : String) : (fileUnder key line buckets k).Sublist (lines ++ [line]) := by
  rw [fileUnder]
  split
  · exact (h k).append (.refl _)
  · exact (h k).trans (List.sublist_append_left _ _)

theorem sublist_fileUnder_hit {buckets : String → List (Nat × String)} {lines : List Nat}
    (h : ∀ k, ((buckets k).map Prod.fst).Sublist lines) (key : String) (line : Nat) (token k : String) :
    ((fileUnder key (line, token) buckets k).map Prod.fst).Sublist (lines ++ [line]) := by
  rw [fileUnder]
  split
  · rw [List.map_append]
    exact (h k).append (.refl _)
  · exact (h k).trans (List.sublist_append_left _ _)

theorem IsInOrder.recordUse {lines : List Nat} {r : Register} (h : r.IsInOrder lines) (line : Nat) (use : Use) :
    (r.recordUse line use).IsInOrder (lines ++ [line]) := by
  have others := h.mono (List.sublist_append_left lines [line])
  cases use with
  | element name => exact { others with elements := sublist_fileUnder h.elements name line }
  | microformat name => exact { others with microformats := sublist_fileUnder h.microformats name line }
  | wellKnown name => exact { others with wellKnown := sublist_fileUnder h.wellKnown name line }
  | wellKnownFormat name => exact { others with wellKnownFormat := sublist_fileUnder h.wellKnownFormat name line }
  | oneLetter letter token => exact { others with oneLetter := sublist_fileUnder_hit h.oneLetter letter line token }
  | twoLetters letters token => exact { others with twoLetters := sublist_fileUnder_hit h.twoLetters letters line token }

theorem IsInOrder.classify {lines : List Nat} {r : Register} (h : r.IsInOrder lines) (v : Vocabulary) (line : Nat)
    (part : Part) : (r.classify v line part).IsInOrder (lines ++ [line]) := by
  rw [Register.classify]
  cases partUse? v part with
  | none => exact h.mono (List.sublist_append_left _ _)
  | some use => exact h.recordUse line use

theorem isInOrder_classified (v : Vocabulary) (calls : List (Part × Nat)) :
    (ofFindings (classified v calls)).IsInOrder (calls.map Prod.snd) := by
  induction calls using List.reverseRecOn with
  | nil => exact ⟨fun _ => .slnil, fun _ => .slnil, fun _ => .slnil, fun _ => .slnil, fun _ => .slnil, fun _ => .slnil⟩
  | append_singleton calls call ih =>
      rw [classified_snoc, ofFindings_classify, List.map_append]
      exact ih.classify v call.2 call.1

end Register

/-! Buckets and how much is in them. -/

/-- All that the buckets of uses hold. -/
def Findings.useCount (f : Findings) : Nat :=
  f.elementCount + f.microformatCount + f.microformat2Count + f.shortStartCount

/-- A use is in one bucket, and in no other. -/
theorem Findings.useCount_eq (f : Findings) : f.useCount = f.uses.length := by
  simp only [useCount, elementCount, microformatCount, microformat2Count, shortStartCount, elements, microformats,
    wellKnown, wellKnownFormat, oneLetter, twoLetters, view, total_grouped]
  induction f.uses with
  | nil => rfl
  | cons first rest ih =>
      obtain ⟨line, use⟩ := first
      cases use <;>
      · simp only [List.filterMap_cons, List.length_cons]
        omega

/-- Classifying files at most one entry. -/
theorem useCount_classified (v : Vocabulary) (calls : List (Part × Nat)) :
    (classified v calls).useCount = calls.countP fun call => (partUse? v call.1).isSome := by
  rw [Findings.useCount_eq, uses_classified, List.length_filterMap_eq_countP]
  simp only [Option.isSome_map]

/-- Classifying leaves the findings consistent, whatever the vocabulary and whatever was classified before: each bucket is
there for some entry and has a name of the kind it is for, a part is filed at the end of one bucket or nowhere, and lines
are in the order of the calls. -/
theorem classified_isConsistent (v : Vocabulary) (calls : List (Part × Nat)) :
    (classified v calls).IsConsistent v ∧
      (Register.ofFindings (classified v calls)).IsInOrder (calls.map Prod.snd) ∧
      ∀ part line,
        Register.ofFindings (classified v (calls ++ [(part, line)])) =
            (match partUse? v part with
            | some use => (Register.ofFindings (classified v calls)).recordUse line use
            | none => Register.ofFindings (classified v calls)) ∧
          (classified v (calls ++ [(part, line)])).useCount =
            (classified v calls).useCount + if (partUse? v part).isSome then 1 else 0 := by
  refine ⟨Findings.isConsistent fun line use => isApt_of_classified, Register.isInOrder_classified v calls, ?_⟩
  intro part line
  constructor
  · rw [classified_snoc, Register.ofFindings_classify]
    cases found : partUse? v part with
    | none => simp only [Register.classify, found]
    | some use => simp only [Register.classify, found]
  · rw [useCount_classified, useCount_classified, List.countP_append, List.countP_singleton]

/-- A class name that both tables list is one of the classic microformats. -/
example : classUse? ⟨[], ["h-card"], ["h-card", "dt-start"]⟩ "H-Card" = some (.microformat "h-card") := by decide +kernel

end StyleAudit
