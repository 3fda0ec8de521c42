import StyleAudit.Audit.Inspection
import StyleAudit.Proofs.GrammarForms
/-!
Selectors that have chains: just those without nesting selectors and column combinators.
-/
namespace StyleAudit.Selector

def Simple.nests : Simple → Bool
  | .nesting => true
  | .negation argument => argument.nests
  | _ => false

/-- A selector in which neither a nesting selector nor a column combinator stands. -/
structure Complex.IsModeled (c : Complex) : Prop where
  simples : ∀ compound ∈ c.compounds, ∀ simple ∈ compound, simple.nests = false
  combinators : Combinator.column ∉ c.combinators

theorem mapM_isOk_iff {α β ε : Type} {f : α → Except ε β} {xs : List α} :
    (∃ ys, xs.mapM f = .ok ys) ↔ ∀ x ∈ xs, ∃ y, f x = .ok y := by
  induction xs with
  | nil => exact ⟨fun _ _ mem => (by cases mem), fun _ => ⟨[], rfl⟩⟩
  | cons x xs ih =>
      rw [List.forall_mem_cons, ← ih, List.mapM_cons]
      constructor
      · rintro ⟨ys, found⟩
        obtain ⟨y, first, found⟩ := bind_eq_ok found
        obtain ⟨ys, rest, -⟩ := bind_eq_ok found
        exact ⟨⟨y, first⟩, ys, rest⟩
      · rintro ⟨⟨y, first⟩, ys, rest⟩
        exact ⟨y :: ys, by rw [first, rest]; rfl⟩

theorem part_isOk_iff {s : Simple} : (∃ part, s.part = .ok part) ↔ s.nests = false := by
  induction s with
  | nesting =>
      constructor
      · rintro ⟨_, found⟩
        cases found
      · intro none
        cases none
  | negation argument ih =>
      rw [Simple.nests, ← ih]
      constructor
      · rintro ⟨_, found⟩
        obtain ⟨part, found, -⟩ := map_eq_ok found
        exact ⟨part, found⟩
      · rintro ⟨part, found⟩
        exact ⟨_, by rw [Simple.part, found]; rfl⟩
  | _ => exact ⟨fun _ => rfl, fun _ => ⟨_, rfl⟩⟩

theorem parts_areOk_iff {compound : Compound} :
    (∃ parts, compound.mapM Simple.part = .ok parts) ↔ ∀ simple ∈ compound, simple.nests = false := by
  rw [mapM_isOk_iff]
  exact forall₂_congr fun _ _ => part_isOk_iff

theorem relation_isOk_iff {sign : Combinator} : (∃ relation, sign.relation = .ok relation) ↔ sign ≠ .column := by
  cases sign with
  | column => exact ⟨fun ⟨_, found⟩ => (by cases found), fun other => absurd rfl other⟩
  | _ => exact ⟨fun _ => by decide, fun _ => ⟨_, rfl⟩⟩

theorem chainFrom_isOk_iff {first : Compound} {links : List (Combinator × Compound)} :
    (∃ chain, chainFrom first links = .ok chain) ↔ (∀ simple ∈ first, simple.nests = false) ∧
      ∀ link ∈ links, link.1 ≠ .column ∧ ∀ simple ∈ link.2, simple.nests = false := by
  induction links generalizing first with
  | nil =>
      rw [← parts_areOk_iff]
      constructor
      · rintro ⟨_, found⟩
        obtain ⟨parts, found, -⟩ := bind_eq_ok found
        exact ⟨⟨parts, found⟩, fun _ mem => by cases mem⟩
      · rintro ⟨⟨parts, found⟩, -⟩
        exact ⟨_, by rw [chainFrom, found]; rfl⟩
  | cons link links ih =>
      obtain ⟨sign, compound⟩ := link
      rw [List.forall_mem_cons, ← parts_areOk_iff, ← relation_isOk_iff, and_assoc, ← ih]
      constructor
      · rintro ⟨_, found⟩
        obtain ⟨next, rest, found⟩ := bind_eq_ok found
        obtain ⟨parts, front, found⟩ := bind_eq_ok found
        obtain ⟨relation, between, -⟩ := bind_eq_ok found
        exact ⟨⟨parts, front⟩, ⟨relation, between⟩, next, rest⟩
      · rintro ⟨⟨parts, front⟩, ⟨relation, between⟩, next, rest⟩
        exact ⟨_, by rw [chainFrom, rest, front, between]; rfl⟩

theorem chain_isOk_iff {c : Complex} : (∃ chain, c.chain = .ok chain) ↔ c.IsModeled := by
  rw [Complex.chain, chainFrom_isOk_iff]
  constructor
  · rintro ⟨first, links⟩
    refine ⟨?_, ?_⟩
    · intro compound mem
      rcases List.mem_cons.mp mem with rfl | mem
      · exact first
      · obtain ⟨link, behind, rfl⟩ := List.mem_map.mp mem
        exact (links link behind).2
    · intro mem
      obtain ⟨link, behind, same⟩ := List.mem_map.mp mem
      exact (links link behind).1 same
  · intro modeled
    refine ⟨modeled.simples c.first List.mem_cons_self, ?_⟩
    intro link mem
    refine ⟨?_, modeled.simples link.2 (List.mem_cons_of_mem _ (List.mem_map_of_mem mem))⟩
    intro same
    exact modeled.combinators (same ▸ List.mem_map_of_mem mem)

/-- A selector list has chains if and only if each of its selectors is modeled. -/
theorem chains_areOk_iff {list : List Complex} : (∃ cs, chains list = .ok cs) ↔ ∀ c ∈ list, c.IsModeled := by
  rw [chains, mapM_isOk_iff]
  exact forall₂_congr fun _ _ => chain_isOk_iff

end StyleAudit.Selector

namespace StyleAudit

open Selector

theorem exists_uses (v : Vocabulary) {list : List Selector.Complex} (h : ∀ c ∈ list, c.IsModeled) :
    ∃ uses, selectorUses v list = .ok uses := by
  obtain ⟨cs, found⟩ := chains_areOk_iff.mpr h
  exact ⟨_, by rw [selectorUses, found]; rfl⟩

end StyleAudit
