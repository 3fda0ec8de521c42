import StyleAudit.Audit.Inspection
import StyleAudit.Proofs.IdleRules
/-!
Rounds of repairs on sound items. One round mends every site that stands outside of a negation with wrong colons; a
second one mends the rest.
-/
namespace StyleAudit.Selector

/-! One rule. -/

theorem run_idle (before : List Char) {r : Repairing} {rule : RepairRule} (h : rule.edits r.text = []) :
    RepairRule.run before r rule = r := by
  obtain ⟨text, count, recorded⟩ := r
  rw [RepairRule.run, h]
  cases rule.kind <;> simp

theorem runs_idle (before : List Char) {r : Repairing} {rules : List RepairRule}
    (h : ∀ rule ∈ rules, rule.edits r.text = []) : rules.foldl (RepairRule.run before) r = r := by
  induction rules with
  | nil => rfl
  | cons rule rules ih =>
      rw [List.foldl_cons, run_idle before (h rule List.mem_cons_self)]
      exact ih fun other mem => h other (List.mem_cons_of_mem rule mem)

theorem count_run (before : List Char) (r : Repairing) (rule : RepairRule) :
    (RepairRule.run before r rule).count = r.count + (rule.edits r.text).length := rfl

theorem count_le_runs (before : List Char) (r : Repairing) (rules : List RepairRule) :
    r.count ≤ (rules.foldl (RepairRule.run before) r).count := by
  induction rules generalizing r with
  | nil => exact Nat.le_refl _
  | cons rule rules ih => exact (Nat.le_add_right _ _).trans (ih (RepairRule.run before r rule))

/-- Rules that do not add to the count do nothing at all. -/
theorem runs_eq_self (before : List Char) {r : Repairing} {rules : List RepairRule}
    (h : (rules.foldl (RepairRule.run before) r).count = r.count) : rules.foldl (RepairRule.run before) r = r := by
  induction rules with
  | nil => rfl
  | cons rule rules ih =>
      rw [List.foldl_cons] at h ⊢
      have first := count_run before r rule
      have rest := count_le_runs before (RepairRule.run before r rule) rules
      have none : rule.edits r.text = [] := List.length_eq_zero_iff.mp (by omega)
      rw [run_idle before none] at h ⊢
      exact ih h

theorem trim_repair (text : List Char) : Text.trim (repair text).text = (repair text).text := by
  unfold repair
  generalize repairRules.foldl _ _ = r
  exact Text.trim_trim r.text

/-- A repair that makes no edit only trims. -/
theorem repair_of_count {text : List Char} (h : (repair text).count = 0) : repair text = ⟨Text.trim text, 0, []⟩ := by
  have same : repairRules.foldl (RepairRule.run text) ⟨text, 0, []⟩ = ⟨text, 0, []⟩ := runs_eq_self text h
  rw [repair, same]

/-- All rules after the third. -/
theorem edits_idle {items : List Item} (hi : AreSound none items) :
    ∀ rule ∈ repairRules.drop 3, rule.edits (textOf items) = [] := by
  have table {colons : Colons} {names : List PseudoName}
      (h : IsTable names ∧ Holds names false false [] ∧ ⟨"not", true⟩ ∉ names) :
      (removal colons names).edits (textOf items) = [] := removal_edits h.1 h.2.1 h.2.2 hi
  intro rule mem
  simp only [repairRules, List.drop_succ_cons, List.drop_zero, List.mem_cons, List.not_mem_nil, or_false] at mem
  rcases mem with rfl | rfl | rfl | rfl | rfl | rfl | rfl | rfl | rfl
  · exact zeroWidth_edits hi
  · exact quotedNegation_edits hi
  · exact selectorPosition_edits hi
  · exact vendorPseudo_edits hi
  · exact emptyNegation_edits hi
  all_goals
    refine table ⟨?_, ?_, by decide +kernel⟩
    · exact isTable_of_all (by decide +kernel)
    · unfold Holds; decide +kernel

/-- What a repair has come to: its text, and the kinds of the edits so far, all of them recorded. -/
structure Reaches (r : Repairing) (items : List Item) (kinds : List RepairKind) : Prop where
  text : r.text = textOf items
  count : r.count = kinds.length
  recorded : r.recorded.map Prod.fst = kinds

theorem Reaches.run {m : Mending} {colons : Colons} {names : List PseudoName}
    {replace : List Char → Option (List Char)} (hm : m.Describes colons names replace) (before : List Char)
    {r : Repairing} {items : List Item} {kinds : List RepairKind} (hr : Reaches r items kinds)
    (hi : AreSound none items) :
    Reaches (RepairRule.run before r ⟨some m.kind, (pseudoRule colons names replace).edits⟩) (items.map m.item)
      (kinds ++ List.replicate (m.hitsIn items) m.kind) := by
  obtain ⟨text, count⟩ := (hm.sweep hi none (by simp)).edits 0
  change Edit.applyAll _ ((pseudoRule colons names replace).edits _) = _ at text
  change ((pseudoRule colons names replace).edits _).length = _ at count
  rw [← hr.text] at text count
  refine ⟨text, ?_, ?_⟩
  · rw [RepairRule.run]
    dsimp only
    rw [hr.count, count, List.length_append, List.length_replicate]
  · rw [RepairRule.run]
    dsimp only
    rw [List.map_append, hr.recorded, List.map_map, ← count]
    congr 1
    exact List.map_const

/-! One round. -/

namespace Mending
variable {m : Mending}

theorem stands_item (hf : Site.Keeps m.mend) {i : Item} {next : Option Char} (h : i.Stands next) :
    (m.item i).Stands next := by
  cases i with
  | atom a => exact Atom.Stands.map hf h
  | negation word inner miscounted =>
      rw [item]
      split
      · exact h
      · exact Item.negation_map hf h miscounted

theorem head?_item (i : Item) : (m.item i).text.head? = i.text.head? := by
  cases i with
  | atom a => exact a.head?_map m.mend
  | negation word inner miscounted =>
      rw [item]
      split <;> rw [Item.head?_text_negation, Item.head?_text_negation]

theorem areSound_map (hf : Site.Keeps m.mend) {items : List Item} {next : Option Char} (h : AreSound next items) :
    AreSound next (items.map m.item) :=
  Row.map h (fun _ i _ => ⟨i.text_visible, head?_item i⟩) fun _ _ hi => stands_item hf hi

end Mending

/-- An item after a round. -/
def Item.mended (i : Item) : Item := mendZeros.item (mendClasses.item (mendElements.item i))

/-- The kinds of the repairs of a round, in their order. -/
def roundKinds (items : List Item) : List RepairKind :=
  List.replicate (mendElements.hitsIn items) .pseudoElementConfusion ++
    List.replicate (mendClasses.hitsIn (items.map mendElements.item)) .pseudoClassConfusion ++
      List.replicate (mendZeros.hitsIn ((items.map mendElements.item).map mendClasses.item)) .ordinality

theorem areSound_mended {items : List Item} {next : Option Char} (h : AreSound next items) :
    AreSound next (items.map Item.mended) := by
  have all := Mending.areSound_map mendZeros_describes.keeps
    (Mending.areSound_map mendClasses_describes.keeps (Mending.areSound_map mendElements_describes.keeps h))
  rwa [List.map_map, List.map_map] at all

theorem repair_items {items : List Item} (hi : AreSound none items) :
    ∃ r : Repairing, Reaches r (items.map Item.mended) (roundKinds items) ∧
      repair (textOf items) = { r with text := Text.trim r.text } := by
  have start : Reaches ⟨textOf items, 0, []⟩ items [] := ⟨rfl, rfl, rfl⟩
  have sound₁ := Mending.areSound_map mendElements_describes.keeps hi
  have sound₂ := Mending.areSound_map mendClasses_describes.keeps sound₁
  have reached := ((start.run mendElements_describes (textOf items) hi).run mendClasses_describes (textOf items)
    sound₁).run mendZeros_describes (textOf items) sound₂
  have mended : ((items.map mendElements.item).map mendClasses.item).map mendZeros.item = items.map Item.mended := by
    rw [List.map_map, List.map_map]
    rfl
  rw [mended, List.nil_append] at reached
  refine ⟨_, reached, ?_⟩
  have idle := runs_idle (textOf items) (reached.text.symm ▸ edits_idle (areSound_mended hi))
  have split : repairRules = repairRules.take 3 ++ repairRules.drop 3 := (List.take_append_drop 3 repairRules).symm
  rw [repair, split, List.foldl_append]
  exact congrArg (fun r : Repairing => { r with text := Text.trim r.text }) idle

/-! Every repair takes one damage off. -/

theorem perm_flatMap {α : Type} {before after : α → List RepairKind} {count : α → Nat} {kind : RepairKind}
    (h : ∀ x, (before x).Perm (List.replicate (count x) kind ++ after x)) (xs : List α) :
    (xs.flatMap before).Perm (List.replicate (xs.map count).sum kind ++ xs.flatMap after) := by
  induction xs with
  | nil => exact .refl _
  | cons x xs ih =>
      rw [List.flatMap_cons, List.map_cons, List.sum_cons, List.flatMap_cons, List.replicate_add, List.append_assoc]
      refine ((h x).append ih).trans ?_
      rw [List.append_assoc]
      refine List.Perm.append_left _ ?_
      rw [← List.append_assoc, ← List.append_assoc]
      exact List.Perm.append_right _ List.perm_append_comm

/-- The hits of a rule are damages of its kind, and what it leaves are the others. -/
structure Mending.Counts (m : Mending) : Prop where
  site : ∀ s : Site, s.damage.Perm (List.replicate (m.hits s).toNat m.kind ++ (m.mend s).damage)
  negations : m.negations = true → m.kind = .pseudoClassConfusion

theorem Mending.Counts.item {m : Mending} (h : m.Counts) (i : Item) :
    i.damage.Perm (List.replicate (m.itemHits i) m.kind ++ (m.item i).damage) := by
  have atom (a : Atom) : a.damage.Perm (List.replicate (m.atomHits a) m.kind ++ (m.atom a).damage) := by
    cases a with
    | char c => exact .refl _
    | site s => exact h.site s
  cases i with
  | atom a => exact atom a
  | negation word inner miscounted =>
      rw [itemHits, Mending.item]
      cases taken : m.negations && miscounted with
      | true =>
          obtain ⟨negations, rfl⟩ := (Bool.and_eq_true _ _).mp taken
          rw [if_pos rfl, if_pos rfl, h.negations negations]
          exact .refl _
      | false =>
          rw [if_neg Bool.false_ne_true, if_neg Bool.false_ne_true, Item.damage, Item.damage, List.flatMap_map]
          refine ((perm_flatMap atom inner).append_left _).trans ?_
          rw [← List.append_assoc, ← List.append_assoc]
          exact List.Perm.append_right _ List.perm_append_comm

theorem Mending.Counts.items {m : Mending} (h : m.Counts) (items : List Item) :
    (damageOf items).Perm (List.replicate (m.hitsIn items) m.kind ++ damageOf (items.map m.item)) := by
  rw [damageOf, damageOf, List.flatMap_map]
  exact perm_flatMap h.item items

theorem mendElements_counts : mendElements.Counts := by
  refine ⟨fun s => ?_, fun h => by cases h⟩
  cases element : s.isElement with
  | false => simp [mendElements, element]
  | true => cases miscounted : s.miscounted <;> simp [mendElements, Site.damage, element, miscounted]

theorem mendClasses_counts : mendClasses.Counts := by
  refine ⟨fun s => ?_, fun _ => rfl⟩
  cases element : s.isElement with
  | true => simp [mendClasses, element]
  | false => cases miscounted : s.miscounted <;> simp [mendClasses, Site.damage, element, miscounted]

theorem mendZeros_counts : mendZeros.Counts := by
  refine ⟨fun s => ?_, fun h => by cases h⟩
  cases miscounted : s.miscounted with
  | true => simp [mendZeros, miscounted]
  | false => cases zeroed : s.zeroed <;> simp [mendZeros, Site.damage, miscounted, zeroed]

/-- A round takes off the damage that it records, and no other. -/
theorem damage_round (items : List Item) :
    (damageOf items).Perm (roundKinds items ++ damageOf (items.map Item.mended)) := by
  have first := mendElements_counts.items items
  have second := mendClasses_counts.items (items.map mendElements.item)
  have third := mendZeros_counts.items ((items.map mendElements.item).map mendClasses.item)
  have mended : ((items.map mendElements.item).map mendClasses.item).map mendZeros.item = items.map Item.mended := by
    rw [List.map_map, List.map_map]
    rfl
  rw [mended] at third
  refine first.trans ?_
  rw [roundKinds, List.append_assoc, List.append_assoc]
  exact (second.trans (third.append_left _)).append_left _

/-! Two rounds. -/

/-- A negation that has its colons right; its argument is swept with the rest. -/
def Item.IsSettled : Item → Prop
  | .atom _ => True
  | .negation _ _ miscounted => miscounted = false

theorem settled_mended (i : Item) : i.mended.IsSettled := by
  cases i with
  | atom a => trivial
  | negation word inner miscounted => cases miscounted <;> exact rfl

theorem Site.mended_proper (s : Site) : mendZeros.mend (mendClasses.mend (mendElements.mend s)) = s.proper := by
  have elements : mendElements.mend s = if s.isElement then { s with miscounted := false } else s := rfl
  cases element : s.isElement with
  | true =>
      have same : ({ s with miscounted := false } : Site).isElement = true := element
      rw [elements, if_pos element]
      simp [mendClasses, mendZeros, same, Site.proper]
  | false =>
      rw [elements, element, if_neg Bool.false_ne_true]
      simp [mendClasses, mendZeros, element, Site.proper]

theorem Atom.mended_proper (a : Atom) : mendZeros.atom (mendClasses.atom (mendElements.atom a)) = a.map Site.proper := by
  cases a with
  | char c => rfl
  | site s => exact congrArg Atom.site s.mended_proper

/-- A settled item is mended in one round. -/
theorem Item.IsSettled.mended {i : Item} (h : i.IsSettled) : i.mended = i.proper := by
  cases i with
  | atom a => exact congrArg Item.atom a.mended_proper
  | negation word inner miscounted =>
      obtain rfl : miscounted = false := h
      change negation word (((inner.map mendElements.atom).map mendClasses.atom).map mendZeros.atom) false =
        negation word (inner.map (Atom.map Site.proper)) false
      rw [List.map_map, List.map_map]
      congr 2
      funext a
      exact a.mended_proper

theorem damage_proper (i : Item) : i.proper.damage = [] := by
  have atom (a : Atom) : (a.map Site.proper).damage = [] := by cases a <;> rfl
  cases i with
  | atom a => exact atom a
  | negation word inner miscounted =>
      change [] ++ (inner.map (Atom.map Site.proper)).flatMap Atom.damage = []
      rw [List.nil_append, List.flatMap_map, List.flatMap_eq_nil_iff]
      exact fun a _ => atom a

theorem Site.proper_of_damage {s : Site} (h : s.damage = []) : s.proper = s := by
  obtain ⟨word, argument, miscounted, zeroed⟩ := s
  cases miscounted <;> cases zeroed <;> first | rfl | cases h

theorem proper_of_damage {i : Item} (h : i.damage = []) : i.proper = i := by
  have atom (a : Atom) (h : a.damage = []) : a.map Site.proper = a := by
    cases a with
    | char c => rfl
    | site s => exact congrArg Atom.site (Site.proper_of_damage h)
  cases i with
  | atom a => exact congrArg Item.atom (atom a h)
  | negation word inner miscounted =>
      obtain ⟨colons, inside⟩ := List.append_eq_nil_iff.mp h
      cases miscounted with
      | true => cases colons
      | false =>
          rw [List.flatMap_eq_nil_iff] at inside
          have same : inner.map (Atom.map Site.proper) = inner.map id := List.map_congr_left fun a mem => atom a (inside a mem)
          rw [Item.proper, same, List.map_id]

theorem Mending.proper_item {m : Mending} (h : ∀ s, (m.mend s).proper = s.proper) (i : Item) :
    (m.item i).proper = i.proper := by
  have atom (a : Atom) : (m.atom a).map Site.proper = a.map Site.proper := by
    cases a with
    | char c => rfl
    | site s => exact congrArg Atom.site (h s)
  cases i with
  | atom a => exact congrArg Item.atom (atom a)
  | negation word inner miscounted =>
      rw [item]
      split
      · rfl
      · rw [Item.proper, Item.proper, List.map_map]
        exact congrArg (Item.negation word · false) (List.map_congr_left fun a _ => atom a)

/-- What a mended item comes to is what the item comes to. -/
theorem proper_mended (i : Item) : i.mended.proper = i.proper := by
  have elements (s : Site) : (mendElements.mend s).proper = s.proper := by
    unfold mendElements; dsimp only; split <;> rfl
  have classes (s : Site) : (mendClasses.mend s).proper = s.proper := by
    unfold mendClasses; dsimp only; split <;> rfl
  have zeros (s : Site) : (mendZeros.mend s).proper = s.proper := by
    unfold mendZeros; dsimp only; split <;> rfl
  rw [Item.mended, Mending.proper_item zeros, Mending.proper_item classes, Mending.proper_item elements]

theorem map_proper_mended (items : List Item) :
    (items.map Item.mended).map Item.proper = items.map Item.proper := by
  rw [List.map_map]
  exact List.map_congr_left fun i _ => proper_mended i

theorem settled_of_hits {i : Item} (h : mendClasses.itemHits (mendElements.item i) = 0) : i.IsSettled := by
  cases i with
  | atom a => trivial
  | negation word inner miscounted => cases miscounted with
    | false => rfl
    | true => cases h

/-- Where a round repairs nothing, there is no damage. -/
theorem damage_of_roundKinds {items : List Item} (h : roundKinds items = []) : damageOf items = [] := by
  have settled : ∀ i ∈ items, i.mended = i.proper := by
    intro i mem
    refine (settled_of_hits ?_).mended
    have none := (List.append_eq_nil_iff.mp (List.append_eq_nil_iff.mp h).1).2
    rw [List.replicate_eq_nil_iff, Mending.hitsIn, List.map_map, List.sum_eq_zero_iff_forall_eq_nat] at none
    exact none _ (List.mem_map_of_mem mem)
  have round := damage_round items
  rw [h, List.nil_append, List.map_congr_left settled] at round
  have clean : damageOf (items.map Item.proper) = [] := by
    rw [damageOf, List.flatMap_map, List.flatMap_eq_nil_iff]
    exact fun i _ => damage_proper i
  rw [clean] at round
  exact List.perm_nil.mp round

theorem map_mended_of_undamaged {items : List Item} (h : damageOf items = []) : items.map Item.mended = items := by
  refine (List.map_congr_left fun i mem => ?_).trans (List.map_id items)
  have clean : i.damage = [] := List.flatMap_eq_nil_iff.mp h i mem
  have settled : i.IsSettled := by
    cases i with
    | atom a => trivial
    | negation word inner miscounted => cases miscounted with
      | false => rfl
      | true => cases (List.append_eq_nil_iff.mp clean).1
  rw [settled.mended, proper_of_damage clean, id]

/-- Where there is no damage, a round repairs nothing. -/
theorem repair_undamaged {items : List Item} (hi : AreSound none items) (hd : damageOf items = []) :
    repair (textOf items) = ⟨Text.trim (textOf items), 0, []⟩ := by
  obtain ⟨r, reached, same⟩ := repair_items hi
  have none : roundKinds items = [] := by
    have round := damage_round items
    rw [hd] at round
    exact (List.append_eq_nil_iff.mp (List.nil_perm.mp round)).1
  rw [none, map_mended_of_undamaged hd] at reached
  obtain ⟨text, count, recorded⟩ := r
  obtain rfl : text = textOf items := reached.text
  obtain rfl : count = 0 := reached.count
  obtain rfl : recorded = [] := List.map_eq_nil_iff.mp reached.recorded
  exact same

/-! Blanks around items. -/

def Item.isBlank : Item → Bool
  | atom a => a.isBlank
  | negation _ _ _ => false

/-- Items without blanks at their ends. -/
structure AreTrimmed (items : List Item) : Prop where
  first : ∀ i, items.head? = some i → i.isBlank = false
  last : ∀ i, items.getLast? = some i → i.isBlank = false

theorem AreTrimmed.map {f : Item → Item} (hf : ∀ i, (f i).isBlank = i.isBlank) {items : List Item}
    (h : AreTrimmed items) : AreTrimmed (items.map f) := by
  refine ⟨fun i hi => ?_, fun i hi => ?_⟩
  · rw [List.head?_map, Option.map_eq_some_iff] at hi
    obtain ⟨j, head, rfl⟩ := hi
    rw [hf, h.first j head]
  · rw [List.getLast?_map, Option.map_eq_some_iff] at hi
    obtain ⟨j, last, rfl⟩ := hi
    rw [hf, h.last j last]

theorem Mending.isBlank_item (m : Mending) (i : Item) : (m.item i).isBlank = i.isBlank := by
  cases i with
  | atom a => cases a <;> rfl
  | negation word inner miscounted =>
      rw [item]
      split <;> rfl

theorem areTrimmed_mended {items : List Item} (h : AreTrimmed items) : AreTrimmed (items.map Item.mended) := by
  refine h.map fun i => ?_
  rw [Item.mended, Mending.isBlank_item, Mending.isBlank_item, Mending.isBlank_item]

theorem isBlank_spelling {own : Colons} {word rest : List Char} {argument : Option (List Char)}
    (h : Fits word argument rest) {c : Char} (hc : (spelling own word argument).getLast? = some c) :
    Text.isBlank c = false := by
  rcases getLast?_spelling h hc with letter | rfl
  · exact isBlank_of_isWordChar letter
  · decide

theorem Item.Stands.ends {i : Item} {next : Option Char} (h : i.Stands next) (hb : i.isBlank = false) {c : Char}
    (hc : i.text.head? = some c ∨ i.text.getLast? = some c) : Text.isBlank c = false := by
  cases i with
  | atom a =>
      cases a with
      | char d =>
          obtain rfl : d = c := hc.elim Option.some.inj Option.some.inj
          exact hb
      | site s =>
          rcases hc with hc | hc
          · obtain rfl : ':' = c := Option.some.inj (s.head?_text.symm.trans hc)
            decide
          · cases next with
            | none => exact isBlank_spelling (h.1.fits [] h.2) hc
            | some d => exact isBlank_spelling (h.1.fits [d] h.2) hc
  | negation word inner miscounted =>
      rcases hc with hc | hc
      · obtain rfl : ':' = c := Option.some.inj ((head?_text_negation word inner miscounted).symm.trans hc)
        decide
      · exact isBlank_spelling (negation_fits h []) hc

theorem trim_items {items : List Item} {next : Option Char} (hs : AreSound next items) (h : AreTrimmed items) :
    Text.trim (textOf items) = textOf items := by
  refine Text.trim_eq_self (fun c hc => ?_) fun c hc => ?_
  · cases items with
    | nil => cases hc
    | cons i items =>
        rw [textOf, List.flatMap_cons, List.head?_append_of_ne_nil _ i.text_visible] at hc
        exact hs.1.ends (h.first i rfl) (.inl hc)
  · rcases List.eq_nil_or_concat items with rfl | ⟨before, i, rfl⟩
    · cases hc
    · rw [List.concat_eq_append] at hs h hc
      rw [textOf, List.flatMap_append, List.flatMap_singleton, List.getLast?_append_of_ne_nil _ i.text_visible] at hc
      exact (Row.append.mp hs).2.1.ends (h.last i List.getLast?_concat) (.inr hc)

end StyleAudit.Selector
