import StyleAudit.Proofs.TokenPieces
import StyleAudit.Css.Nesting
/-!
Texts whose tokens make up nodes of a known form. What is written of two texts is known of both together, and what is
written of a text is known of the block around it.
-/
namespace StyleAudit.Css

open Selector (StopsAt)

/-- Tokens that are just these nodes, whatever blocks are open around them. -/
def Nests (ts : List Token) (nodes : List Node) : Prop :=
  ∀ s : Nesting, ts.foldl Nesting.push s = ⟨nodes.reverse ++ s.nodes, s.blocks⟩

/-- A token that neither opens nor closes a block. -/
def TokenKind.IsLeaf (kind : TokenKind) : Prop := kind.opens? = none ∧ ∀ b, kind ≠ .closing b

theorem Nests.nil : Nests [] [] := fun _ => rfl

theorem Nests.append {ts us : List Token} {ms ns : List Node} (ht : Nests ts ms) (hu : Nests us ns) :
    Nests (ts ++ us) (ms ++ ns) := by
  intro s
  rw [List.foldl_append, ht, hu, List.reverse_append, List.append_assoc]

theorem Nests.leaf {t : Token} (h : t.kind.IsLeaf) : Nests [t] [.leaf t] := by
  intro s
  obtain ⟨opens, closes⟩ := h
  obtain ⟨nodes, blocks⟩ := s
  cases blocks with
  | nil => simp [Nesting.push, opens]
  | cons b outer => simp [Nesting.push, opens, closes]

theorem Nests.leaves {ts : List Token} (h : ∀ t ∈ ts, t.kind.IsLeaf) : Nests ts (ts.map .leaf) := by
  induction ts with
  | nil => exact .nil
  | cons t ts ih => exact (Nests.leaf (h t (by simp))).append (ih fun u hu => h u (by simp [hu]))

theorem Nests.block {opener closer : Token} {opening : Opening} {ts : List Token} {nodes : List Node}
    (ho : opener.kind.opens? = some opening) (hc : closer.kind = .closing opening.closes) (h : Nests ts nodes) :
    Nests (opener :: (ts ++ [closer])) [.block opening opener nodes (some closer)] := by
  intro s
  have open_ : Nesting.push s opener = ⟨[], ⟨opening, opener, s.nodes⟩ :: s.blocks⟩ := by simp [Nesting.push, ho]
  have plain : (TokenKind.closing opening.closes).opens? = none := rfl
  rw [List.foldl_cons, open_, List.foldl_append, h]
  simp [Nesting.push, hc, plain, Nesting.close]

theorem ofTokens_nests {ts : List Token} {nodes : List Node} (h : Nests ts nodes) : Node.ofTokens ts = nodes := by
  rw [Node.ofTokens, h]
  simp [Nesting.finish]

/-- A text whose tokens, in front of what stops it, are nodes of a known form. -/
def Written (text : List Char) (stops : List Char → Prop) (form : List Node → Prop) : Prop :=
  ∃ pieces, spelling pieces = text ∧ (∀ rest, stops rest → Apart pieces rest) ∧
    ∀ ts, Carries ts pieces → ∃ nodes, Nests ts nodes ∧ form nodes

/-- Nothing that a text stops at. -/
def Anywhere (_ : List Char) : Prop := True

/-- Where a word ends. -/
def WordEnd (rest : List Char) : Prop := StopsAt extendsWord rest

/-- Nodes of two forms, one behind the other. -/
def Both (first second : List Node → Prop) (nodes : List Node) : Prop :=
  ∃ ms ns, nodes = ms ++ ns ∧ first ms ∧ second ns

/-- The tokens of the pieces, each a node of its own. -/
def Leaves (pieces : List Piece) (nodes : List Node) : Prop := ∃ ts, Carries ts pieces ∧ nodes = ts.map .leaf

/-- A block in curly brackets that is closed and holds nodes of a known form. -/
def Enclosed (opening : Opening) (form : List Node → Prop) (nodes : List Node) : Prop :=
  ∃ opener contents closer, nodes = [.block opening opener contents (some closer)] ∧ form contents

namespace Written

variable {text other : List Char} {stops stops' : List Char → Prop} {form form' : List Node → Prop}

theorem mono (h : Written text stops form) (hs : ∀ rest, stops' rest → stops rest) (hf : ∀ nodes, form nodes → form' nodes) :
    Written text stops' form' := by
  obtain ⟨pieces, spelled, apart, nests⟩ := h
  refine ⟨pieces, spelled, fun rest hr => apart rest (hs rest hr), fun ts carries => ?_⟩
  obtain ⟨nodes, nested, form⟩ := nests ts carries
  exact ⟨nodes, nested, hf nodes form⟩

theorem append (h : Written text stops form) (h' : Written other stops' form')
    (hs : ∀ rest, stops' rest → stops (other ++ rest)) : Written (text ++ other) stops' (Both form form') := by
  obtain ⟨ps, rfl, apart, nests⟩ := h
  obtain ⟨qs, rfl, apart', nests'⟩ := h'
  refine ⟨ps ++ qs, spelling_append ps qs, fun rest hr => (apart _ (hs rest hr)).append (apart' rest hr), ?_⟩
  intro ts carries
  obtain ⟨before, behind, rfl, carries, carries'⟩ := carries.append
  obtain ⟨ms, nested, known⟩ := nests before carries
  obtain ⟨ns, nested', known'⟩ := nests' behind carries'
  exact ⟨ms ++ ns, nested.append nested', ms, ns, rfl, known, known'⟩

theorem leaves {pieces : List Piece} (hl : ∀ p ∈ pieces, p.kind.IsLeaf) (ha : ∀ rest, stops rest → Apart pieces rest) :
    Written (spelling pieces) stops (Leaves pieces) := by
  refine ⟨pieces, rfl, ha, fun ts carries => ⟨ts.map .leaf, Nests.leaves ?_, ts, carries, rfl⟩⟩
  exact carries.forall_kind TokenKind.IsLeaf hl

theorem block {opener closer : Piece} {opening : Opening} (h : Written text stops form)
    (ho : opener.kind.opens? = some opening) (hc : closer.kind = .closing opening.closes)
    (hr : ∀ rest, opener.ReadBefore (text ++ rest)) (hs : ∀ rest, stops (closer.lexeme ++ rest))
    (hr' : ∀ rest, closer.ReadBefore rest) :
    Written (opener.lexeme ++ (text ++ closer.lexeme)) Anywhere (Enclosed opening form) := by
  obtain ⟨ps, rfl, apart, nests⟩ := h
  refine ⟨opener :: (ps ++ [closer]), by simp [spelling], fun rest _ => ⟨?_, ?_⟩, ?_⟩
  · rw [spelling_append, List.append_assoc]
    exact hr _
  · refine Apart.append (apart _ ?_) ⟨hr' _, trivial⟩
    simpa [spelling] using hs rest
  · intro ts carries
    obtain ⟨o, behind, rfl, kind, -, -, carries⟩ := carries.cons
    obtain ⟨inner, last, rfl, inside, carries⟩ := carries.append
    obtain ⟨c, none, rfl, kind', -, -, carries⟩ := carries.cons
    obtain rfl := carries.nil
    obtain ⟨nodes, nested, known⟩ := nests inner inside
    exact ⟨_, Nests.block (kind ▸ ho) (kind' ▸ hc) nested, o, nodes, c, rfl, known⟩

end Written

end StyleAudit.Css
