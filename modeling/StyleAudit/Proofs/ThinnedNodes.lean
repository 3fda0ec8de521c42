import StyleAudit.Css.ComponentValue
import StyleAudit.Proofs.NestedNodes
/-!
Nodes with white space left out. Of tokens that are the same but for white space, the nodes are the same but for it: brackets
are not white space, so that each block stays where it is.
-/
namespace StyleAudit.Css

open Node (listTokens)

/-- Kinds of tokens without some of the white space. -/
inductive Thins : List TokenKind → List TokenKind → Prop
  | nil : Thins [] []
  | keep (kind : TokenKind) {ks ls : List TokenKind} : Thins ks ls → Thins (kind :: ks) (kind :: ls)
  | drop {ks ls : List TokenKind} : Thins ks ls → Thins (.whitespace :: ks) ls

namespace Thins

theorem append_left {ks js ls : List TokenKind} (h : Thins (ks ++ js) ls) :
    ∃ ls₁ ls₂, ls = ls₁ ++ ls₂ ∧ Thins ks ls₁ ∧ Thins js ls₂ := by
  induction ks generalizing ls with
  | nil => exact ⟨[], ls, rfl, .nil, h⟩
  | cons k ks ih =>
      cases h with
      | keep _ h =>
          obtain ⟨ls₁, ls₂, rfl, front, behind⟩ := ih h
          exact ⟨k :: ls₁, ls₂, rfl, .keep k front, behind⟩
      | drop h =>
          obtain ⟨ls₁, ls₂, rfl, front, behind⟩ := ih h
          exact ⟨ls₁, ls₂, rfl, .drop front, behind⟩

theorem visible {k : TokenKind} {ks ls : List TokenKind} (h : Thins (k :: ks) ls) (visible : k ≠ .whitespace) :
    ∃ ls', ls = k :: ls' ∧ Thins ks ls' := by
  cases h with
  | keep _ h => exact ⟨_, rfl, h⟩
  | drop _ => exact absurd rfl visible

theorem single {k : TokenKind} {ls : List TokenKind} (h : Thins [k] ls) : ls = [k] ∨ ls = [] := by
  cases h with
  | keep _ h =>
      cases h
      exact .inl rfl
  | drop h =>
      cases h
      exact .inr rfl

/-- Tokens without some of the white space, in front of others. -/
theorem tokens_append {ks js : List TokenKind} {us : List Token} (h : Thins (ks ++ js) (us.map Token.kind)) :
    ∃ us₁ us₂, us = us₁ ++ us₂ ∧ Thins ks (us₁.map Token.kind) ∧ Thins js (us₂.map Token.kind) := by
  obtain ⟨ls₁, ls₂, same, front, behind⟩ := h.append_left
  obtain ⟨us₁, us₂, rfl, rfl, rfl⟩ := List.map_eq_append_iff.mp same
  exact ⟨us₁, us₂, rfl, front, behind⟩

theorem tokens_visible {k : TokenKind} {ks : List TokenKind} {us : List Token} (h : Thins (k :: ks) (us.map Token.kind))
    (visible : k ≠ .whitespace) : ∃ u us', us = u :: us' ∧ u.kind = k ∧ Thins ks (us'.map Token.kind) := by
  obtain ⟨ls, same, behind⟩ := h.visible visible
  obtain ⟨u, us', rfl, rfl, rfl⟩ := List.map_eq_cons_iff.mp same
  exact ⟨u, us', rfl, rfl, behind⟩

theorem tokens_nil {us : List Token} (h : Thins [] (us.map Token.kind)) : us = [] := by
  generalize same : us.map Token.kind = ls at h
  cases h
  exact List.map_eq_nil_iff.mp same

end Thins

/-- Nodes that reading does not tell apart: the same token, or blocks in brackets that are both curly or both not. -/
def Node.Alike (m n : Node) : Prop := m.kind? = n.kind? ∧ m.isCurly = n.isCurly

/-- Nodes without some that are white space, each of the others like the one in its place. -/
inductive Sifts : List Node → List Node → Prop
  | nil : Sifts [] []
  | keep {n m : Node} {ns ms : List Node} : m.Alike n → Sifts ns ms → Sifts (n :: ns) (m :: ms)
  | drop {n : Node} {ns ms : List Node} : n.kind? = some .whitespace → Sifts ns ms → Sifts (n :: ns) ms

namespace Sifts

variable {ns ms : List Node}

theorem append {ns' ms' : List Node} (h : Sifts ns ms) (h' : Sifts ns' ms') : Sifts (ns ++ ns') (ms ++ ms') := by
  induction h with
  | nil => exact h'
  | keep alike _ ih => exact .keep alike ih
  | drop blank _ ih => exact .drop blank ih

theorem alike (h : Sifts ns ms) : ∀ m ∈ ms, ∃ n ∈ ns, m.Alike n := by
  induction h with
  | nil => nofun
  | @keep n m ns ms alike _ ih =>
      intro k hk
      rcases List.mem_cons.mp hk with rfl | later
      · exact ⟨n, List.mem_cons_self, alike⟩
      · obtain ⟨l, hl, same⟩ := ih k later
        exact ⟨l, List.mem_cons_of_mem n hl, same⟩
  | @drop n ns ms blank _ ih =>
      intro k hk
      obtain ⟨l, hl, same⟩ := ih k hk
      exact ⟨l, List.mem_cons_of_mem n hl, same⟩

/-- The first node stays the first, unless it is white space. -/
theorem first (h : Sifts ns ms) (visible : ∀ n ∈ ns.head?, n.kind? ≠ some .whitespace) :
    ∀ m ∈ ms.head?, ∃ n ∈ ns.head?, m.Alike n := by
  cases h with
  | nil => nofun
  | @keep n _ _ _ alike _ =>
      rintro m ⟨⟩
      exact ⟨n, rfl, alike⟩
  | drop blank _ => exact absurd blank (visible _ rfl)

/-- What is no white space stays. -/
theorem kinds (h : Sifts ns ms) :
    (ms.map Node.kind?).filter (· ≠ some .whitespace) = (ns.map Node.kind?).filter (· ≠ some .whitespace) := by
  induction h with
  | nil => rfl
  | keep alike _ ih => rw [List.map_cons, List.map_cons, List.filter_cons, List.filter_cons, ih, alike.1]
  | drop blank _ ih => rw [List.map_cons, List.filter_cons_of_neg (by simp [blank]), ih]

end Sifts

mutual
/-- Without some of its white space a closed node is one of the same kind, or nothing if it is white space itself. -/
theorem exists_thinnedNode (n : Node) {around : Option Bracket} {us : List Token} (h : n.IsNested around false)
    (thins : Thins (n.tokens.map Token.kind) (us.map Token.kind)) :
    ∃ ns, listTokens ns = us ∧ Node.AreNested around false ns ∧ Sifts [n] ns := by
  cases n with
  | leaf t =>
      rcases thins.single with kept | none
      · obtain ⟨u, rfl, same⟩ := List.map_eq_singleton_iff.mp kept
        refine ⟨[.leaf u], rfl, ⟨?_, trivial⟩, .keep ⟨congrArg some same, rfl⟩ .nil⟩
        rw [Node.IsNested, same]
        exact h
      · have blank : t.kind = .whitespace := by
          by_contra visible
          obtain ⟨_, same, -⟩ := thins.visible visible
          cases none.symm.trans same
        exact ⟨[], (List.map_eq_nil_iff.mp none).symm, trivial, .drop (congrArg some blank) .nil⟩
  | block opening opener contents closer =>
      obtain ⟨opens, inside, closes, ends⟩ := h
      cases closer with
      | none => exact absurd (ends rfl) Bool.false_ne_true
      | some t =>
          rw [Node.tokens, List.map_cons, List.map_append] at thins
          obtain ⟨o, us, rfl, opener', thins⟩ := thins.tokens_visible (TokenKind.ne_of_opens opens rfl)
          obtain ⟨us, vs, rfl, within, behind⟩ := thins.tokens_append
          have closing : t.kind ≠ .whitespace := by rw [closes t rfl]; nofun
          obtain ⟨c, vs, rfl, closer', none⟩ := behind.tokens_visible closing
          obtain rfl := none.tokens_nil
          obtain ⟨ns, rfl, nested, -⟩ := exists_thinned contents inside within
          refine ⟨[.block opening o ns (some c)], ?_, ⟨⟨by rw [opener', opens], nested, ?_, nofun⟩, trivial⟩, ?_⟩
          · rw [listTokens, listTokens, List.append_nil, Node.tokens, Option.toList_some]
          · rintro _ ⟨⟩
            rw [closer', closes t rfl]
          · exact .keep ⟨rfl, by rcases opening with bracket | name <;> first | rfl | (cases bracket <;> rfl)⟩ .nil

/-- Closed nodes without some of their white space. -/
theorem exists_thinned (ns : List Node) {around : Option Bracket} {us : List Token} (h : Node.AreNested around false ns)
    (thins : Thins ((listTokens ns).map Token.kind) (us.map Token.kind)) :
    ∃ ms, listTokens ms = us ∧ Node.AreNested around false ms ∧ Sifts ns ms := by
  cases ns with
  | nil => exact ⟨[], thins.tokens_nil.symm, trivial, .nil⟩
  | cons n ns =>
      rw [listTokens, List.map_append] at thins
      obtain ⟨us, vs, rfl, first, later⟩ := thins.tokens_append
      obtain ⟨ks, rfl, nested, same⟩ := exists_thinnedNode n h.1 first
      obtain ⟨ms, rfl, nested', same'⟩ := exists_thinned ns h.2 later
      exact ⟨ks ++ ms, Node.listTokens_append ks ms, Node.areNested_append.mpr ⟨nested, nested'⟩, same.append same'⟩
end

/-! The tokens of component values. -/

def Opening.kind : Opening → TokenKind
  | .bracket b => .opening b
  | .function name => .function name

theorem Opening.kind_of_opens {kind : TokenKind} {opening : Opening} (h : kind.opens? = some opening) : kind = opening.kind := by
  unfold TokenKind.opens? at h
  split at h <;> cases h <;> rfl

namespace ComponentValue

mutual
/-- The kinds of the tokens that a value is written with. -/
def kinds : ComponentValue → List TokenKind
  | .token kind => [kind]
  | .block opening contents => opening.kind :: (listKinds contents ++ [.closing opening.closes])

def listKinds : List ComponentValue → List TokenKind
  | [] => []
  | v :: rest => v.kinds ++ listKinds rest
end

mutual
/-- Closed nodes have the tokens of their values. -/
theorem kinds_ofNode (n : Node) {around : Option Bracket} (h : n.IsNested around false) :
    (ofNode n).kinds = n.tokens.map Token.kind := by
  cases n with
  | leaf t => rfl
  | block opening opener contents closer =>
      obtain ⟨opens, inside, closes, ends⟩ := h
      cases closer with
      | none => exact absurd (ends rfl) Bool.false_ne_true
      | some t =>
          rw [ofNode, kinds, listKinds_ofNodes contents inside, Node.tokens, List.map_cons, List.map_append,
            Option.toList_some, List.map_singleton, Opening.kind_of_opens opens, closes t rfl]

theorem listKinds_ofNodes (ns : List Node) {around : Option Bracket} (h : Node.AreNested around false ns) :
    listKinds (ofNodes ns) = (listTokens ns).map Token.kind := by
  cases ns with
  | nil => rfl
  | cons n ns =>
      rw [ofNodes, listKinds, kinds_ofNode n h.1, listKinds_ofNodes ns h.2, listTokens, List.map_append]
end

end ComponentValue
end StyleAudit.Css
