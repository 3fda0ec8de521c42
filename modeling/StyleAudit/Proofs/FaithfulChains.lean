import StyleAudit.Proofs.ModeledSelectors
import StyleAudit.Proofs.Registers
/-!
Faithful chains: the chain of a selector goes through its compounds and combinators in source order and keeps a part of
each simple selector, so that each element name and class name is classified once, wherever it stands.
-/
namespace StyleAudit.Selector

/-- What a part keeps of a simple selector: all but the test of an attribute. -/
inductive Keeps : Simple → Part → Prop
  | element (name : String) : Keeps (.element name) (.element name)
  | universal : Keeps .universal .universal
  | className (name : String) : Keeps (.className name) (.className name)
  | id (name : String) : Keeps (.id name) (.id name)
  | hasAttribute (name : String) (test : Option (AttributeTest × String)) :
      Keeps (.hasAttribute name test) (.hasAttribute name)
  | pseudoClass (pseudo : PseudoClass) : Keeps (.pseudoClass pseudo) (.pseudoClass pseudo.name)
  | negation {argument : Simple} {part : Part} (kept : Keeps argument part) :
      Keeps (.negation argument) (.pseudoFunction "not" part)
  | language (range : String) : Keeps (.language range) (.pseudoFunction "lang" (.language range))
  | position (pseudo : PositionClass) (place : Position) :
      Keeps (.position pseudo place) (.pseudoFunction pseudo.name (.position place))
  | pseudoElement (pseudo : PseudoElement) : Keeps (.pseudoElement pseudo) (.pseudoElement pseudo.name)

inductive Relates : Combinator → Relation → Prop
  | descendant : Relates .descendant .descendant
  | child : Relates .child .child
  | nextSibling : Relates .nextSibling .nextSibling
  | laterSibling : Relates .laterSibling .laterSibling

/-- A chain with the compounds of a selector in source order, each with a part for each of its simple selectors, and
with its combinators in source order. -/
structure Complex.IsKept (c : Complex) (chain : Chain) : Prop where
  compounds : List.Forall₂ (List.Forall₂ Keeps) c.compounds (chain.steps.map Prod.fst)
  combinators : ∃ relations, List.Forall₂ Relates c.combinators relations ∧
    chain.steps.map Prod.snd = relations.map some ++ [none]

theorem keeps_iff {s : Simple} {part : Part} : Keeps s part ↔ s.part = .ok part := by
  constructor
  · intro kept
    induction kept with
    | negation _ ih => rw [Simple.part, ih]; rfl
    | _ => rfl
  · intro found
    induction s generalizing part with
    | nesting => cases found
    | negation argument ih =>
        obtain ⟨inner, read, rfl⟩ := map_eq_ok found
        exact .negation (ih read)
    | _ => obtain rfl := Except.ok.inj found; constructor

theorem relates_iff {sign : Combinator} {relation : Relation} : Relates sign relation ↔ sign.relation = .ok relation := by
  constructor
  · intro related
    cases related <;> rfl
  · intro found
    cases sign with
    | column => cases found
    | _ => obtain rfl := Except.ok.inj found; constructor

theorem forall₂_of_mapM {α β ε : Type} {f : α → Except ε β} {xs : List α} {ys : List β}
    (h : xs.mapM f = .ok ys) : List.Forall₂ (fun x y => f x = .ok y) xs ys := by
  induction xs generalizing ys with
  | nil => obtain rfl := Except.ok.inj h; exact .nil
  | cons x xs ih =>
      rw [List.mapM_cons] at h
      obtain ⟨y, first, h⟩ := bind_eq_ok h
      obtain ⟨ys, rest, h⟩ := bind_eq_ok h
      obtain rfl := Except.ok.inj h
      exact .cons first (ih rest)

theorem keeps_of_mapM {compound : Compound} {parts : List Part} (h : compound.mapM Simple.part = .ok parts) :
    List.Forall₂ Keeps compound parts :=
  (forall₂_of_mapM h).imp fun _ _ => keeps_iff.mpr

theorem isKept_of_chain {c : Complex} {chain : Chain} (h : c.chain = .ok chain) : c.IsKept chain := by
  obtain ⟨first, links⟩ := c
  rw [Complex.chain] at h
  dsimp only at h
  -- on the links, each of which becomes a link of the chain
  induction links generalizing first chain with
  | nil =>
      obtain ⟨parts, front, h⟩ := bind_eq_ok h
      obtain rfl := Except.ok.inj h
      exact ⟨.cons (keeps_of_mapM front) .nil, [], .nil, rfl⟩
  | cons link links ih =>
      obtain ⟨sign, compound⟩ := link
      obtain ⟨next, rest, h⟩ := bind_eq_ok h
      obtain ⟨parts, front, h⟩ := bind_eq_ok h
      obtain ⟨relation, between, h⟩ := bind_eq_ok h
      obtain rfl := Except.ok.inj h
      obtain ⟨compounds, relations, related, listed⟩ := ih compound rest
      exact ⟨.cons (keeps_of_mapM front) compounds, relation :: relations, .cons (relates_iff.mpr between) related,
        congrArg (some relation :: ·) listed⟩

/-! Chains from their ends. -/

/-- The compound in front of a chain, with the combinator between them. -/
def Chain.behind (next : Chain) (step : Compound × Combinator) : Except Unmodeled Chain := do
  let parts ← step.1.mapM Simple.part
  return .link parts (← step.2.relation) next

/-- The chain of a selector, put together from its end: each compound goes in front of the chain behind it. -/
def Complex.chainBackwards (c : Complex) : Except Unmodeled (Option Chain) :=
  match c.compounds.reverse with
  | [] => .ok none
  | subject :: before => do
    let parts ← subject.mapM Simple.part
    return some (← (before.zip c.combinators.reverse).foldlM Chain.behind (.last parts))

theorem chainFrom_backwards (first : Compound) (links : List (Combinator × Compound)) :
    ∃ subject before, (first :: links.map Prod.snd).reverse = subject :: before ∧ before.length = links.length ∧
      chainFrom first links = (subject.mapM Simple.part >>= fun parts =>
        (before.zip (links.map Prod.fst).reverse).foldlM Chain.behind (.last parts)) := by
  induction links generalizing first with
  | nil => exact ⟨first, [], rfl, rfl, rfl⟩
  | cons link links ih =>
      obtain ⟨sign, compound⟩ := link
      obtain ⟨subject, before, reversed, size, same⟩ := ih compound
      refine ⟨subject, before ++ [first], ?_, by simp [size], ?_⟩
      · rw [List.map_cons, List.reverse_cons, reversed, List.cons_append]
      · have zipped : (before ++ [first]).zip (((sign, compound) :: links).map Prod.fst).reverse =
            before.zip (links.map Prod.fst).reverse ++ [(first, sign)] := by
          rw [List.map_cons, List.reverse_cons, List.zip_append (by simp [size])]
          rfl
        rw [chainFrom, same, zipped, bind_assoc]
        simp only [List.foldlM_append, List.foldlM_cons, List.foldlM_nil, Chain.behind, bind_pure]

/-- Put together from either end, a chain is the same, and so is the construct that has no place in it. -/
theorem chainBackwards_eq (c : Complex) : c.chainBackwards = c.chain.map some := by
  obtain ⟨subject, before, reversed, -, same⟩ := chainFrom_backwards c.first c.links
  rw [Complex.chain, same, Complex.chainBackwards, Complex.compounds, reversed]
  change (subject.mapM Simple.part >>= fun parts =>
    (before.zip c.combinators.reverse).foldlM Chain.behind (.last parts) >>= fun chain => .ok (some chain)) = _
  cases subject.mapM Simple.part with
  | error _ => rfl
  | ok parts =>
      rw [Complex.combinators]
      cases (before.zip (c.links.map Prod.fst).reverse).foldlM Chain.behind (.last parts) <;> rfl

/-! Names. -/

/-- A name that selectors are classified by. -/
inductive Name where
  | element (name : String)
  | className (name : String)
  deriving DecidableEq, Repr

/-- The name in a simple selector; that of a negation is in its argument. -/
def Simple.name? : Simple → Option Name
  | .element name => some (.element name)
  | .className name => some (.className name)
  | .negation argument => argument.name?
  | _ => none

/-- The names in a selector, in source order. -/
def Complex.names (c : Complex) : List Name := c.compounds.flatten.filterMap Simple.name?

theorem parts_of_steps (chain : Chain) : chain.parts = (chain.steps.map Prod.fst).flatten := by
  induction chain with
  | last parts => exact (List.append_nil parts).symm
  | link parts relation next ih => rw [Chain.parts, ih]; rfl

theorem Complex.IsKept.parts {c : Complex} {chain : Chain} (h : c.IsKept chain) :
    List.Forall₂ Keeps c.compounds.flatten chain.parts := by
  rw [parts_of_steps]
  exact List.rel_flatten h.compounds

theorem isKept_of_chains {list : List Complex} {cs : List Chain} (h : chains list = .ok cs) :
    List.Forall₂ Complex.IsKept list cs :=
  (forall₂_of_mapM h).imp fun _ _ => isKept_of_chain

end StyleAudit.Selector

namespace StyleAudit

open Selector (Simple Part Chain Name Keeps chains)

/-- The use that a name is. -/
def nameUse? (v : Vocabulary) : Name → Option Use
  | .element name => if v.isPosh name then none else some (.element name)
  | .className name => classUse? v name

/-- A part is the use that the name in its simple selector is. -/
theorem partUse?_of_keeps (v : Vocabulary) {s : Simple} {part : Part} (kept : Keeps s part) :
    partUse? v part = s.name?.bind (nameUse? v) := by
  induction kept with
  | negation _ ih => exact ih
  | _ => rfl

namespace Register

/-- A name is filed if it is a use of a vocabulary. -/
def recordName (v : Vocabulary) (line : Nat) (r : Register) (name : Name) : Register :=
  match nameUse? v name with
  | some use => r.recordUse line use
  | none => r

/-- The walk along a chain: what is in a compound is filed before the chain behind it. -/
def walk (v : Vocabulary) (line : Nat) (r : Register) : Chain → Register
  | .last parts => parts.foldl (classify v line) r
  | .link parts _ next => walk v line (parts.foldl (classify v line) r) next

theorem walk_eq (v : Vocabulary) (line : Nat) (r : Register) (chain : Chain) :
    r.walk v line chain = chain.parts.foldl (classify v line) r := by
  induction chain generalizing r with
  | last parts => rfl
  | link parts relation next ih => rw [walk, ih, Chain.parts, List.foldl_append]

theorem classify_of_keeps (v : Vocabulary) (line : Nat) (r : Register) {s : Simple} {part : Part}
    (kept : Keeps s part) : r.classify v line part = s.name?.toList.foldl (recordName v line) r := by
  rw [classify, partUse?_of_keeps v kept]
  cases s.name? <;> rfl

theorem classify_all_of_keeps (v : Vocabulary) (line : Nat) (r : Register) {simples : List Simple} {parts : List Part}
    (kept : List.Forall₂ Keeps simples parts) :
    parts.foldl (classify v line) r = (simples.filterMap Simple.name?).foldl (recordName v line) r := by
  induction kept generalizing r with
  | nil => rfl
  | @cons s part simples parts first _ ih =>
      rw [List.foldl_cons, classify_of_keeps v line r first, ih]
      cases found : s.name? with
      | none => rw [List.filterMap_cons_none found]; rfl
      | some name => rw [List.filterMap_cons_some found]; rfl

theorem walk_all (v : Vocabulary) (line : Nat) (r : Register) {list : List Selector.Complex} {cs : List Chain}
    (kept : List.Forall₂ Selector.Complex.IsKept list cs) :
    cs.foldl (walk v line) r = (list.flatMap Selector.Complex.names).foldl (recordName v line) r := by
  induction kept generalizing r with
  | nil => rfl
  | cons first _ ih =>
      rw [List.foldl_cons, ih, walk_eq, classify_all_of_keeps v line r first.parts, List.flatMap_cons,
        List.foldl_append]
      rfl

end Register

theorem filterMap_of_keeps (v : Vocabulary) {simples : List Simple} {parts : List Part}
    (kept : List.Forall₂ Keeps simples parts) :
    parts.filterMap (partUse? v) = (simples.filterMap Simple.name?).filterMap (nameUse? v) := by
  induction kept with
  | nil => rfl
  | @cons s part simples parts first _ ih =>
      rw [List.filterMap_filterMap] at ih ⊢
      rw [List.filterMap_cons, List.filterMap_cons, ih, partUse?_of_keeps v first]

theorem uses_of_isKept (v : Vocabulary) {list : List Selector.Complex} {cs : List Chain}
    (kept : List.Forall₂ Selector.Complex.IsKept list cs) :
    (cs.flatMap Chain.parts).filterMap (partUse? v) = (list.flatMap Selector.Complex.names).filterMap (nameUse? v) := by
  induction kept with
  | nil => rfl
  | cons first _ ih =>
      rw [List.flatMap_cons, List.flatMap_cons, List.filterMap_append, List.filterMap_append, ih,
        filterMap_of_keeps v first.parts]
      rfl

/-- A selector list has chains if and only if neither a nesting selector, also in a negation, nor a column combinator
stands in it. There is one chain for each selector, with its compounds and its combinators in source order, and a part
for each of its simple selectors. The uses in the list are those of its element names and class names, in source order,
each name once, and a walk along the chains files just these. -/
theorem chains_keep (v : Vocabulary) (list : List Selector.Complex) :
    ((∃ cs, chains list = .ok cs) ↔ ∀ c ∈ list, c.IsModeled) ∧
      ∀ cs, chains list = .ok cs →
        List.Forall₂ Selector.Complex.IsKept list cs ∧
          selectorUses v list = .ok ((list.flatMap Selector.Complex.names).filterMap (nameUse? v)) ∧
            ∀ line r, cs.foldl (Register.walk v line) r =
              (list.flatMap Selector.Complex.names).foldl (Register.recordName v line) r := by
  refine ⟨Selector.chains_areOk_iff, fun cs found => ?_⟩
  have kept := Selector.isKept_of_chains found
  refine ⟨kept, ?_, fun line r => Register.walk_all v line r kept⟩
  rw [selectorUses_ok found, uses_of_isKept v kept]

/-- The names of `a > .x:not(.y-z) ~ b`, and its chain. -/
example :
    let c : Selector.Complex := ⟨[.element "a"], [(.child, [.className "x", .negation (.className "y-z")]),
      (.laterSibling, [.element "b"])]⟩
    c.names = [.element "a", .className "x", .className "y-z", .element "b"] ∧
      c.chain = .ok (.link [.element "a"] .child
        (.link [.className "x", .pseudoFunction "not" (.className "y-z")] .laterSibling (.last [.element "b"]))) := by
  exact ⟨rfl, rfl⟩

end StyleAudit
