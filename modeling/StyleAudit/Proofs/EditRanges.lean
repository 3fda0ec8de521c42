import StyleAudit.Proofs.Buckets
import StyleAudit.Proofs.GuardedText
/-!
Ranges of edits. Whatever a text is, the edits that a rule finds in it are ranges of it, none of them empty and each behind
the one before it, and they take nothing else out of it. A repair counts the edits of all its rules and records those of
the rules that have a kind.
-/
namespace StyleAudit.Selector

/-! Ranges. -/

/-- Ranges of a text, none of them empty and each behind the one before it. -/
structure AreRanges (text : List Char) (edits : List Edit) : Prop where
  visible : ∀ e ∈ edits, 0 < e.size
  inside : ∀ e ∈ edits, e.stop ≤ text.length
  ordered : edits.Pairwise fun e later => e.start < later.start ∧ e.stop ≤ later.start

/-- The ranges of edits give way to what takes their place, and what is around them is kept. The text is what there is from
a position on. -/
inductive Replaced : Nat → List Char → List Edit → List Char → Prop
  | done {position : Nat} {text : List Char} : Replaced position text [] text
  | edit {position : Nat} {kept matched rest out : List Char} {e : Edit} {edits : List Edit} :
      e.start = position + kept.length → e.size = matched.length → Replaced e.stop rest edits out →
        Replaced position (kept ++ (matched ++ rest)) (e :: edits) (kept ++ (e.replacement ++ out))

/-- A text in three, with the sizes of the first two. -/
theorem exists_cut (text : List Char) (before size : Nat) (within : before + size ≤ text.length) :
    ∃ kept matched rest, text = kept ++ (matched ++ rest) ∧ kept.length = before ∧ matched.length = size := by
  refine ⟨text.take before, (text.drop before).take size, (text.drop before).drop size, ?_, ?_, ?_⟩
  · rw [List.take_append_drop, List.take_append_drop]
  · exact List.length_take_of_le (by omega)
  · refine List.length_take_of_le ?_
    rw [List.length_drop]
    omega

theorem applyFrom_cut {position : Nat} (kept matched rest : List Char) {e : Edit} (start : e.start = position + kept.length)
    (size : e.size = matched.length) (edits : List Edit) : Edit.applyFrom position (kept ++ (matched ++ rest)) (e :: edits) =
      kept ++ (e.replacement ++ Edit.applyFrom e.stop rest edits) := by
  have stop : e.stop - position = (kept ++ matched).length := by
    rw [Edit.stop, start, size, List.length_append]
    omega
  have front : e.start - position = kept.length := by omega
  rw [Edit.applyFrom, stop, front, List.take_left, ← List.append_assoc kept matched, List.drop_left, List.append_assoc]

theorem replaced_applyFrom {position : Nat} {text : List Char} {edits : List Edit}
    (behind : ∀ e ∈ edits, position ≤ e.start) (inside : ∀ e ∈ edits, e.stop ≤ position + text.length)
    (ordered : edits.Pairwise fun e later => e.start < later.start ∧ e.stop ≤ later.start) :
    Replaced position text edits (Edit.applyFrom position text edits) := by
  induction ordered generalizing position text with
  | nil => exact .done
  | @cons e edits first _ ih =>
      have here := behind e List.mem_cons_self
      have within := inside e List.mem_cons_self
      have stop : e.stop = e.start + e.size := rfl
      obtain ⟨kept, matched, rest, rfl, before, size⟩ :=
        exists_cut text (e.start - position) e.size (by omega)
      have start : e.start = position + kept.length := by omega
      rw [applyFrom_cut kept matched rest start size.symm]
      refine .edit start size.symm (ih ?_ ?_)
      · intro later mem
        exact (first later mem).2
      · intro later mem
        have end_ := inside later (List.mem_cons_of_mem _ mem)
        rw [List.length_append, List.length_append] at end_
        omega

theorem AreRanges.replaced {text : List Char} {edits : List Edit} (h : AreRanges text edits) :
    Replaced 0 text edits (Edit.applyAll text edits) := by
  refine replaced_applyFrom ?_ ?_ h.ordered
  · exact fun _ _ => Nat.zero_le _
  · intro e mem
    rw [Nat.zero_add]
    exact h.inside e mem

/-! Ranges of a rule that goes from left to right. -/

/-- No edit starts before the end of what is skipped. -/
theorem editsFrom_behind (rule : LocalRule) (skip position : Nat) (previous : Option Char) (text : List Char) :
    ∀ e ∈ rule.editsFrom skip position previous text, position + skip ≤ e.start := by
  induction text generalizing skip position previous with
  | nil => exact fun _ => nofun
  | cons c rest ih =>
      cases skip with
      | succ more =>
          intro e mem
          have start := ih more (position + 1) (some c) e mem
          omega
      | zero =>
          have later (skip : Nat) : ∀ e ∈ rule.editsFrom skip (position + 1) (some c) rest, position + 0 ≤ e.start := by
            intro e mem
            have start := ih skip (position + 1) (some c) e mem
            omega
          rw [LocalRule.editsFrom]
          cases rule previous (c :: rest) with
          | none => exact later 0
          | some found => exact List.forall_mem_cons.mpr ⟨Nat.le_refl _, later _⟩

theorem ordered_editsFrom {rule : LocalRule} (h : ReplacesStart rule) (skip position : Nat) (previous : Option Char)
    (text : List Char) : (rule.editsFrom skip position previous text).Pairwise
      fun e later => e.start < later.start ∧ e.stop ≤ later.start := by
  induction text generalizing skip position previous with
  | nil => exact .nil
  | cons c rest ih =>
      cases skip with
      | succ more => exact ih more (position + 1) (some c)
      | zero =>
          rw [LocalRule.editsFrom]
          cases found : rule previous (c :: rest) with
          | none => exact ih 0 (position + 1) (some c)
          | some edit =>
              obtain ⟨front, _, -, size, visible⟩ := h previous (c :: rest) edit.1 edit.2 found
              have some_ := List.length_pos_iff.mpr visible
              refine .cons ?_ (ih (edit.1 - 1) (position + 1) (some c))
              intro later mem
              have start := editsFrom_behind rule _ _ _ _ later mem
              simp only [Edit.stop]
              omega

theorem ReplacesStart.areRanges {rule : LocalRule} (h : ReplacesStart rule) (text : List Char) :
    AreRanges text (rule.edits text) := by
  have found {e : Edit} (mem : e ∈ rule.edits text) : 0 < e.size ∧ e.stop ≤ text.length := by
    obtain ⟨before, rest, previous, rfl, start, acts⟩ := mem_editsFrom mem
    obtain ⟨front, behind, rfl, size, visible⟩ := h previous rest e.size e.replacement acts
    have some_ := List.length_pos_iff.mpr visible
    rw [Edit.stop, List.length_append, List.length_append]
    omega
  exact ⟨fun _ mem => (found mem).1, fun _ mem => (found mem).2, ordered_editsFrom h 0 0 none text⟩

theorem replacesStart_pseudoRule {colons : Colons} {names : List PseudoName} {replace : List Char → Option (List Char)}
    (hn : IsNameTable names) : ReplacesStart (pseudoRule colons names replace) := by
  intro previous text size replacement found
  obtain ⟨word, argument, rest, rfl, -, rfl, -, -, -⟩ := pseudoRule_some hn found
  exact ⟨_, rest, rfl, rfl, spelling_ne_nil _ _ _⟩

theorem replacesStart_vendorPseudo : ReplacesStart vendorPseudo := by
  intro previous text size replacement found
  obtain ⟨own, mark, run, argument, rest, -, heads, rfl, -⟩ := vendorPseudo_some found
  exact ⟨_, rest, heads.text, rfl, spelling_ne_nil _ _ _⟩

theorem replacesStart_zeroWidth : ReplacesStart zeroWidth := by
  intro previous text size replacement found
  obtain ⟨c, rest, rfl, -, rfl, -⟩ := zeroWidth_some found
  exact ⟨[c], rest, rfl, rfl, List.cons_ne_nil _ _⟩

/-! Ranges of the other rules. -/

theorem areRanges_single (front matched back replacement : List Char) (visible : matched ≠ []) :
    AreRanges (front ++ (matched ++ back)) [⟨front.length, matched.length, replacement⟩] where
  visible := List.forall_mem_singleton.mpr (List.length_pos_iff.mpr visible)
  inside := by
    refine List.forall_mem_singleton.mpr ?_
    simp only [Edit.stop, List.length_append]
    omega
  ordered := List.pairwise_singleton _ _

theorem areRanges_nil (text : List Char) : AreRanges text [] := ⟨fun _ => nofun, fun _ => nofun, .nil⟩

theorem areRanges_quotedNegation (text : List Char) : AreRanges text (quotedNegation text) := by
  by_cases none : quotedNegation text = []
  · rw [none]
    exact areRanges_nil text
  · obtain ⟨front, word, quote, inner, rest, -, -, -, rfl, -, edits⟩ := quotedNegation_some none
    rw [edits]
    exact areRanges_single _ _ _ _ (spelling_ne_nil _ _ _)

theorem areRanges_selectorPosition (text : List Char) : AreRanges text (selectorPosition text) := by
  by_cases none : selectorPosition text = []
  · rw [none]
    exact areRanges_nil text
  · obtain ⟨front, word, mark, inner, rest, -, -, rfl, -, edits⟩ := selectorPosition_some none
    rw [edits]
    exact areRanges_single _ _ _ _ (spelling_ne_nil _ _ _)

/-! Ranges of all the rules. -/

/-- How a rule searches a text. -/
inductive IsSearch : (List Char → List Edit) → Prop
  | pseudo {colons : Colons} {names : List PseudoName} {replace : List Char → Option (List Char)} : IsNameTable names →
      IsSearch (pseudoRule colons names replace).edits
  | width : IsSearch zeroWidth.edits
  | negation : IsSearch quotedNegation
  | position : IsSearch selectorPosition
  | vendor : IsSearch vendorPseudo.edits

theorem isSearch_edits : ∀ rule ∈ repairRules, IsSearch rule.edits := by
  have pseudo {colons : Colons} {names : List PseudoName} {replace : List Char → Option (List Char)} (table :
      (names.all fun n => n.name != "" && n.name.toList.all fun c => isWordChar c && c.toLower == c) = true) :
      IsSearch (pseudoRule colons names replace).edits := .pseudo (isNameTable_of_all table)
  intro rule mem
  simp only [repairRules, List.mem_cons, List.not_mem_nil, or_false] at mem
  rcases mem with rfl | rfl | rfl | rfl | rfl | rfl | rfl | rfl | rfl | rfl | rfl | rfl
  · exact pseudo (by decide +kernel)
  · exact pseudo (by decide +kernel)
  · exact pseudo (by decide +kernel)
  · exact .width
  · exact .negation
  · exact .position
  · exact .vendor
  all_goals exact pseudo (by decide +kernel)

theorem IsSearch.areRanges {edits : List Char → List Edit} (h : IsSearch edits) (text : List Char) :
    AreRanges text (edits text) := by
  cases h with
  | pseudo table => exact (replacesStart_pseudoRule table).areRanges text
  | width => exact replacesStart_zeroWidth.areRanges text
  | negation => exact areRanges_quotedNegation text
  | position => exact areRanges_selectorPosition text
  | vendor => exact replacesStart_vendorPseudo.areRanges text

/-! What a repair counts and records. -/

/-- The rules of a repair, each with the text that it gets. -/
def inputs : List Char → List RepairRule → List (RepairRule × List Char)
  | _, [] => []
  | text, rule :: rest => (rule, text) :: inputs (Edit.applyAll text (rule.edits text)) rest

theorem fst_inputs (text : List Char) (rules : List RepairRule) : (inputs text rules).map Prod.fst = rules := by
  induction rules generalizing text with
  | nil => rfl
  | cons rule rest ih => exact congrArg (rule :: ·) (ih _)

def editCount (input : RepairRule × List Char) : Nat := (input.1.edits input.2).length

/-- What a rule records of its text within a repair of the selector `before`. -/
def records (before : List Char) (input : RepairRule × List Char) : List (RepairKind × Replacement) :=
  match input.1.kind with
  | some kind => (input.1.edits input.2).map fun e =>
      (kind, ⟨String.ofList before, String.ofList (e.matched input.2), String.ofList e.replacement⟩)
  | none => []

theorem runs_inputs (before : List Char) (rules : List RepairRule) (r : Repairing) :
    (rules.foldl (RepairRule.run before) r).count = r.count + ((inputs r.text rules).map editCount).sum ∧
      (rules.foldl (RepairRule.run before) r).recorded = r.recorded ++ (inputs r.text rules).flatMap (records before) := by
  induction rules generalizing r with
  | nil => exact ⟨rfl, (List.append_nil _).symm⟩
  | cons rule rules ih =>
      obtain ⟨count, recorded⟩ := ih (RepairRule.run before r rule)
      rw [List.foldl_cons, inputs, List.map_cons, List.sum_cons, List.flatMap_cons]
      refine ⟨?_, ?_⟩
      · rw [count, count_run, Nat.add_assoc]
        rfl
      · rw [recorded, ← List.append_assoc]
        rfl

theorem sum_editCount (before : List Char) (inputs : List (RepairRule × List Char)) :
    (inputs.flatMap (records before)).length + ((inputs.filter (·.1.kind.isNone)).map editCount).sum =
      (inputs.map editCount).sum := by
  induction inputs with
  | nil => rfl
  | cons input rest ih =>
      rw [List.flatMap_cons, List.length_append, List.map_cons, List.sum_cons, List.filter_cons]
      cases kind : input.1.kind with
      | none =>
          rw [records, kind, Option.isNone_none, if_pos rfl, List.map_cons, List.sum_cons, List.length_nil]
          omega
      | some kind' =>
          rw [records, kind, Option.isNone_some, if_neg Bool.false_ne_true, List.length_map, ← ih, editCount]
          omega

end StyleAudit.Selector
