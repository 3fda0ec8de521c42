import Mathlib.Data.List.TakeWhile
import StyleAudit.Css.Nesting
/-!
The nodes of a token list. Their tokens are the list, none left out; a block ends at the first token that closes it, and
a block without such a token reaches to the end.
-/
namespace StyleAudit.Css

theorem TokenKind.ne_of_opens {kind other : TokenKind} {opening : Opening} (h : kind.opens? = some opening)
    (ho : other.opens? = none) : kind ≠ other := by
  rintro rfl
  cases h.symm.trans ho

mutual
/-- A node in a block that the given bracket closes, or in none. Only where it is the last one may it be a block without
a closing token. -/
def Node.IsNested (around : Option Bracket) (last : Bool) : Node → Prop
  | .leaf t => t.kind.opens? = none ∧ t.kind ≠ .endOfSource ∧ ∀ b, around = some b → t.kind ≠ .closing b
  | .block opening opener contents closer =>
    opener.kind.opens? = some opening ∧ Node.AreNested (some opening.closes) closer.isNone contents ∧
      (∀ t, closer = some t → t.kind = .closing opening.closes) ∧ (closer = none → last = true)

def Node.AreNested (around : Option Bracket) (last : Bool) : List Node → Prop
  | [] => True
  | n :: rest => n.IsNested around (last && rest.isEmpty) ∧ Node.AreNested around last rest
end

namespace Node
variable {around : Option Bracket} {last : Bool}

theorem IsNested.anywhere {n : Node} (h : n.IsNested around false) : n.IsNested around last := by
  cases n with
  | leaf t => exact h
  | block opening opener contents closer =>
      obtain ⟨opens, inside, closes, ends⟩ := h
      exact ⟨opens, inside, closes, fun none => absurd (ends none) Bool.false_ne_true⟩

theorem areNested_append {ms ns : List Node} :
    AreNested around last (ms ++ ns) ↔ AreNested around (last && ns.isEmpty) ms ∧ AreNested around last ns := by
  induction ms with
  | nil => simp [AreNested]
  | cons m ms ih =>
      have same : (last && (ms ++ ns).isEmpty) = (last && ns.isEmpty && ms.isEmpty) := by
        cases ms <;> cases ns <;> simp
      rw [List.cons_append, AreNested, AreNested, ih, same, and_assoc]

theorem AreNested.anywhere {ns : List Node} (h : AreNested around false ns) : AreNested around last ns := by
  induction ns with
  | nil => trivial
  | cons n ns ih => exact ⟨h.1.anywhere, ih h.2⟩

theorem head?_tokens (n : Node) (ts : List Token) : (n.tokens ++ ts).head? = some n.first := by
  cases n <;> rfl

theorem length_tokens_pos (n : Node) : 0 < n.tokens.length := by
  cases n <;> exact Nat.succ_pos _

theorem IsNested.first_ne_end {n : Node} (h : n.IsNested around last) : n.first.kind ≠ .endOfSource := by
  cases n with
  | leaf t => exact h.2.1
  | block opening opener contents closer => exact TokenKind.ne_of_opens h.1 rfl

theorem IsNested.first_ne_closing {n : Node} {b : Bracket} (h : n.IsNested (some b) last) :
    n.first.kind ≠ .closing b := by
  cases n with
  | leaf t => exact h.2.2 b rfl
  | block opening opener contents closer => exact TokenKind.ne_of_opens h.1 rfl

/-- What opens nothing is a node of its own where it is the first token of one. -/
theorem IsNested.kind?_iff {n : Node} (h : n.IsNested around last) {kind : TokenKind} (hk : kind.opens? = none) :
    n.kind? = some kind ↔ n.first.kind = kind := by
  cases n with
  | leaf t => exact Option.some_inj
  | block opening opener contents closer =>
      exact ⟨(fun none => by cases none), fun same => absurd same (TokenKind.ne_of_opens h.1 hk)⟩

theorem IsNested.leaf_of_kind {n : Node} (h : n.IsNested around last) {kind : TokenKind} (hn : n.first.kind = kind)
    (hk : kind.opens? = none) : ∃ t, n = .leaf t := by
  cases n with
  | leaf t => exact ⟨t, rfl⟩
  | block opening opener contents closer => exact absurd hn (TokenKind.ne_of_opens h.1 hk)

theorem IsNested.isCurly_iff {n : Node} (h : n.IsNested around last) :
    n.isCurly = true ↔ n.first.kind = .opening .curly := by
  cases n with
  | leaf t =>
      refine ⟨(fun curly => by cases curly), fun same => ?_⟩
      have opens : t.kind.opens? = none := h.1
      rw [show t.kind = .opening .curly from same] at opens
      cases opens
  | block opening opener contents closer =>
      have opens : opener.kind.opens? = some opening := h.1
      change isCurly (.block opening opener contents closer) = true ↔ opener.kind = .opening .curly
      cases kind : opener.kind with
      | opening b =>
          rw [kind] at opens
          cases opens
          cases b <;> simp [isCurly]
      | function name =>
          rw [kind] at opens
          cases opens
          simp [isCurly]
      | _ => rw [kind] at opens; cases opens

theorem AreNested.mem {ns : List Node} (h : AreNested around last ns) {n : Node} (hn : n ∈ ns) :
    n.IsNested around true := by
  induction ns with
  | nil => cases hn
  | cons m ns ih =>
      cases hn with
      | head => cases last <;> cases ns <;> first | exact h.1 | exact h.1.anywhere
      | tail _ later => exact ih h.2 later

mutual
/-- No end mark is among the tokens of nodes. -/
theorem IsNested.ne_end (n : Node) {around : Option Bracket} {last : Bool} (h : n.IsNested around last) :
    ∀ t ∈ n.tokens, t.kind ≠ .endOfSource := by
  cases n with
  | leaf t => exact fun u hu => List.mem_singleton.mp hu ▸ h.2.1
  | block opening opener contents closer =>
      obtain ⟨opens, inside, closes, -⟩ := h
      intro t ht
      rcases List.mem_cons.mp ht with rfl | later
      · exact TokenKind.ne_of_opens opens rfl
      · rcases List.mem_append.mp later with within | behind
        · exact AreNested.ne_end contents inside t within
        · rw [closes t (Option.mem_toList.mp behind)]
          exact TokenKind.noConfusion

theorem AreNested.ne_end (ns : List Node) {around : Option Bracket} {last : Bool} (h : AreNested around last ns) :
    ∀ t ∈ listTokens ns, t.kind ≠ .endOfSource := by
  cases ns with
  | nil => exact fun t ht => (List.not_mem_nil ht).elim
  | cons n ns =>
      intro t ht
      rcases List.mem_append.mp ht with here | later
      · exact IsNested.ne_end n h.1 t here
      · exact AreNested.ne_end ns h.2 t later
end

end Node

namespace Nesting

/-- The bracket that closes the innermost of the open blocks. -/
def awaited (blocks : List OpenBlock) : Option Bracket := blocks.head?.map fun b => b.opening.closes

/-- The tokens in front of the innermost open block, with its opening. -/
def openTokens : List OpenBlock → List Token
  | [] => []
  | b :: outer => openTokens outer ++ (Node.listTokens b.before.reverse ++ [b.opener])

/-- The tokens that were read. -/
def tokens (s : Nesting) : List Token := openTokens s.blocks ++ Node.listTokens s.nodes.reverse

/-- Open blocks with what stands in front of each of them. -/
def AreOpen : List OpenBlock → Prop
  | [] => True
  | b :: outer =>
    b.opener.kind.opens? = some b.opening ∧ Node.AreNested (awaited outer) false b.before.reverse ∧ AreOpen outer

/-- All that was read so far is nested. -/
structure IsNested (s : Nesting) : Prop where
  nodes : Node.AreNested (awaited s.blocks) false s.nodes.reverse
  blocks : AreOpen s.blocks

/-! One token. -/

theorem listTokens_close (nodes : List Node) (b : OpenBlock) (closer : Option Token) :
    Node.listTokens (close nodes b closer).reverse =
      Node.listTokens b.before.reverse ++ b.opener :: (Node.listTokens nodes.reverse ++ closer.toList) := by
  rw [close, List.reverse_cons, Node.listTokens_append, Node.listTokens, Node.listTokens, Node.tokens, List.append_nil]

theorem tokens_push (s : Nesting) (t : Token) : (s.push t).tokens = s.tokens ++ [t] := by
  obtain ⟨nodes, blocks⟩ := s
  have leaf : Node.listTokens (Node.leaf t :: nodes).reverse = Node.listTokens nodes.reverse ++ [t] := by
    rw [List.reverse_cons, Node.listTokens_append]
    rfl
  rw [push]
  cases t.kind.opens? with
  | some opening => simp [tokens, openTokens, Node.listTokens]
  | none =>
      cases blocks with
      | nil => simp only [tokens, leaf, List.append_assoc]
      | cons b outer =>
          dsimp only
          split
          · simp only [tokens, listTokens_close, openTokens, Option.toList_some, List.append_assoc, List.cons_append,
              List.nil_append]
          · simp only [tokens, leaf, List.append_assoc]

theorem areNested_snoc {around : Option Bracket} {nodes : List Node} {n : Node}
    (h : Node.AreNested around false nodes.reverse) (hn : n.IsNested around false) :
    Node.AreNested around false (n :: nodes).reverse := by
  rw [List.reverse_cons, Node.areNested_append]
  exact ⟨h, hn, trivial⟩

theorem IsNested.push {s : Nesting} (h : s.IsNested) {t : Token} (ht : t.kind ≠ .endOfSource) :
    (s.push t).IsNested := by
  obtain ⟨nodes, blocks⟩ := s
  obtain ⟨inside, outside⟩ := h
  rw [Nesting.push]
  cases opens : t.kind.opens? with
  | some opening => exact ⟨trivial, opens, inside, outside⟩
  | none =>
      cases blocks with
      | nil =>
          have leaf : (Node.leaf t).IsNested none false := ⟨opens, ht, fun b none => by cases none⟩
          exact ⟨areNested_snoc inside leaf, outside⟩
      | cons b outer =>
          dsimp only
          split
          · next closes =>
              obtain ⟨opened, before, around⟩ := outside
              refine ⟨areNested_snoc before ⟨opened, inside, fun u same => ?_, fun none => by cases none⟩, around⟩
              rw [← Option.some.inj same]
              exact closes
          · next other =>
              refine ⟨areNested_snoc inside ⟨opens, ht, fun c same => ?_⟩, outside⟩
              rw [← Option.some.inj same]
              exact other

/-! The whole list. -/

theorem listTokens_finish (s : Nesting) : Node.listTokens s.finish = s.tokens := by
  obtain ⟨nodes, blocks⟩ := s
  simp only [finish, tokens]
  induction blocks generalizing nodes with
  | nil => rfl
  | cons b outer ih =>
      rw [List.foldl_cons, ih, listTokens_close, openTokens]
      simp

theorem IsNested.finish {s : Nesting} (h : s.IsNested) : Node.AreNested none true s.finish := by
  obtain ⟨nodes, blocks⟩ := s
  obtain ⟨inside, outside⟩ := h
  replace inside : Node.AreNested (awaited blocks) true nodes.reverse := inside.anywhere
  simp only [Nesting.finish]
  induction blocks generalizing nodes with
  | nil => exact inside
  | cons b outer ih =>
      obtain ⟨opened, before, around⟩ := outside
      have closed : Node.AreNested (awaited outer) true (close nodes b none).reverse := by
        rw [close, List.reverse_cons, Node.areNested_append]
        exact ⟨before.anywhere, ⟨opened, inside, (fun t same => by cases same), fun _ => rfl⟩, trivial⟩
      exact ih _ around closed

end Nesting

/-- The nodes of a list have just its tokens. -/
theorem listTokens_ofTokens (ts : List Token) : Node.listTokens (Node.ofTokens ts) = ts := by
  have read (s : Nesting) : (ts.foldl Nesting.push s).tokens = s.tokens ++ ts := by
    induction ts generalizing s with
    | nil => rw [List.foldl_nil, List.append_nil]
    | cons t ts ih => rw [List.foldl_cons, ih, Nesting.tokens_push, List.append_assoc, List.singleton_append]
  rw [Node.ofTokens, Nesting.listTokens_finish, read]
  rfl

theorem areNested_ofTokens {ts : List Token} (h : ∀ t ∈ ts, t.kind ≠ .endOfSource) :
    Node.AreNested none true (Node.ofTokens ts) := by
  have read (s : Nesting) (hs : s.IsNested) : (ts.foldl Nesting.push s).IsNested := by
    induction ts generalizing s with
    | nil => exact hs
    | cons t ts ih =>
        exact ih (fun u hu => h u (List.mem_cons_of_mem t hu)) _ (hs.push (h t List.mem_cons_self))
  exact (read {} ⟨trivial, trivial⟩).finish

/-! Tokens of nodes. -/

namespace Nesting

mutual
/-- The tokens of a closed node are read as the node, where it may stand. -/
theorem push_node (n : Node) {nodes : List Node} {blocks : List OpenBlock} (h : n.IsNested (awaited blocks) false) :
    n.tokens.foldl push ⟨nodes, blocks⟩ = ⟨n :: nodes, blocks⟩ := by
  cases n with
  | leaf t =>
      obtain ⟨opens, -, stays⟩ := h
      rw [Node.tokens, List.foldl_cons, List.foldl_nil, push, opens]
      cases blocks with
      | nil => rfl
      | cons b outer => exact if_neg (stays _ rfl)
  | block opening opener contents closer =>
      obtain ⟨opens, inside, closes, ends⟩ := h
      cases closer with
      | none => exact absurd (ends rfl) Bool.false_ne_true
      | some t =>
          have kind := closes t rfl
          have first : push ⟨nodes, blocks⟩ opener = ⟨[], ⟨opening, opener, nodes⟩ :: blocks⟩ := by rw [push, opens]
          have none : t.kind.opens? = none := by rw [kind]; rfl
          have inner : (Node.listTokens contents).foldl push ⟨[], ⟨opening, opener, nodes⟩ :: blocks⟩ =
              ⟨contents.reverse ++ [], ⟨opening, opener, nodes⟩ :: blocks⟩ := push_nodes contents inside
          rw [Node.tokens, List.foldl_cons, List.foldl_append, first, inner, List.append_nil, Option.toList_some,
            List.foldl_cons, List.foldl_nil, push, none]
          simp only [if_pos kind, close, List.reverse_reverse]

theorem push_nodes (ns : List Node) {nodes : List Node} {blocks : List OpenBlock}
    (h : Node.AreNested (awaited blocks) false ns) :
    (Node.listTokens ns).foldl push ⟨nodes, blocks⟩ = ⟨ns.reverse ++ nodes, blocks⟩ := by
  cases ns with
  | nil => rfl
  | cons n ns =>
      rw [Node.listTokens, List.foldl_append, push_node n h.1, push_nodes ns h.2, List.reverse_cons, List.append_assoc,
        List.singleton_append]
end

mutual
/-- At the end of the source a node may also be a block that is not closed. -/
theorem finish_node (n : Node) {nodes : List Node} {blocks : List OpenBlock} (h : n.IsNested (awaited blocks) true) :
    (n.tokens.foldl push ⟨nodes, blocks⟩).finish = finish ⟨n :: nodes, blocks⟩ := by
  cases n with
  | leaf t => rw [push_node (.leaf t) h]
  | block opening opener contents closer =>
      obtain ⟨opens, inside, closes, ends⟩ := h
      cases closer with
      | some t =>
          have closed : (Node.block opening opener contents (some t)).IsNested (awaited blocks) false :=
            ⟨opens, inside, closes, nofun⟩
          rw [push_node _ closed]
      | none =>
          have first : push ⟨nodes, blocks⟩ opener = ⟨[], ⟨opening, opener, nodes⟩ :: blocks⟩ := by rw [push, opens]
          have inner : ((Node.listTokens contents).foldl push ⟨[], ⟨opening, opener, nodes⟩ :: blocks⟩).finish =
              finish ⟨contents.reverse ++ [], ⟨opening, opener, nodes⟩ :: blocks⟩ := finish_nodes contents inside
          rw [Node.tokens, List.foldl_cons, Option.toList_none, List.append_nil, first, inner, List.append_nil, finish,
            List.foldl_cons, close, List.reverse_reverse, finish]

theorem finish_nodes (ns : List Node) {nodes : List Node} {blocks : List OpenBlock}
    (h : Node.AreNested (awaited blocks) true ns) :
    ((Node.listTokens ns).foldl push ⟨nodes, blocks⟩).finish = finish ⟨ns.reverse ++ nodes, blocks⟩ := by
  cases ns with
  | nil => rfl
  | cons n ns =>
      obtain ⟨first, later⟩ := h
      rw [Node.listTokens, List.foldl_append]
      cases ns with
      | nil => exact finish_node n first
      | cons m ns =>
          rw [push_node n first, finish_nodes (m :: ns) later]
          simp only [List.reverse_cons, List.append_assoc, List.cons_append, List.nil_append]
end

end Nesting

/-- Nodes are told by their tokens. -/
theorem ofTokens_listTokens {ns : List Node} (h : Node.AreNested none true ns) : Node.ofTokens (Node.listTokens ns) = ns := by
  rw [Node.ofTokens]
  have read : ((Node.listTokens ns).foldl Nesting.push {}).finish = Nesting.finish ⟨ns.reverse ++ [], []⟩ :=
    Nesting.finish_nodes ns h
  rw [read, List.append_nil, Nesting.finish, List.foldl_nil, List.reverse_reverse]

/-! The first of several nodes. -/

theorem length_listTokens_pos {ns : List Node} (h : ns ≠ []) : 0 < (Node.listTokens ns).length := by
  cases ns with
  | nil => exact absurd rfl h
  | cons n ns =>
      have := n.length_tokens_pos
      rw [Node.listTokens, List.length_append]
      omega

theorem leaf_of_kind? {n : Node} {kind : TokenKind} (h : n.kind? = some kind) : ∃ t, n = .leaf t ∧ t.kind = kind := by
  cases n with
  | leaf t => exact ⟨t, rfl, Option.some.inj h⟩
  | block => cases h

theorem block_of_isCurly {n : Node} (h : n.isCurly = true) :
    ∃ opener contents closer, n = .block (.bracket .curly) opener contents closer := by
  unfold Node.isCurly at h
  split at h
  · exact ⟨_, _, _, rfl⟩
  · cases h

theorem curly_head {ns : List Node} (h : ∃ n ∈ ns.head?, n.isCurly = true) :
    ∃ opener contents closer rest, ns = .block (.bracket .curly) opener contents closer :: rest := by
  obtain ⟨n, hn, curly⟩ := h
  obtain ⟨rest, rfl⟩ := List.head?_eq_some_iff.mp hn
  obtain ⟨opener, contents, closer, rfl⟩ := block_of_isCurly curly
  exact ⟨opener, contents, closer, rest, rfl⟩

theorem leaf_head {ns : List Node} {kind : TokenKind} (h : ∃ n ∈ ns.head?, n.kind? = some kind) :
    ∃ t rest, ns = .leaf t :: rest ∧ t.kind = kind := by
  obtain ⟨n, hn, same⟩ := h
  obtain ⟨rest, rfl⟩ := List.head?_eq_some_iff.mp hn
  obtain ⟨t, rfl, kind⟩ := leaf_of_kind? same
  exact ⟨t, rest, rfl, kind⟩

/-- A list in front of and from its first member of a kind on. -/
theorem exists_split {α : Type} (p : α → Bool) (l : List α) :
    ∃ part rest, l = part ++ rest ∧ (∀ a ∈ part, p a = false) ∧ ∀ a ∈ rest.head?, p a = true := by
  refine ⟨l.takeWhile (!p ·), l.dropWhile (!p ·), List.takeWhile_append_dropWhile.symm, fun a ha => ?_, fun a ha => ?_⟩
  · simpa using List.mem_takeWhile_imp ha
  · rw [← List.find?_eq_head?_dropWhile_not] at ha
    exact List.find?_some ha

end StyleAudit.Css
