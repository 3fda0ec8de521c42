import StyleAudit.Css.Lexer
/-!
The bracket structure of a token list. A block runs from its opening token to the first closing token that matches
it, or to the end of the source; a closing token that matches no innermost block is a token like any other. No token
is lost: the tokens of the nodes are the tokens that were read.
-/
namespace StyleAudit.Css

/-- A token that opens nothing, or a block with all that is in it. An unclosed block has no closing token. -/
inductive Node where
  | leaf (token : Token)
  | block (opening : Opening) (opener : Token) (contents : List Node) (closer : Option Token)
  deriving Repr

namespace Node

mutual
/-- The tokens of a node, in the order they were read. -/
def tokens : Node → List Token
  | .leaf t => [t]
  | .block _ opener contents closer => opener :: (listTokens contents ++ closer.toList)

def listTokens : List Node → List Token
  | [] => []
  | n :: rest => n.tokens ++ listTokens rest
end

def first : Node → Token
  | .leaf t => t
  | .block _ opener _ _ => opener

def line (n : Node) : Nat := n.first.line

/-- What a node is if it is a single token. -/
def kind? : Node → Option TokenKind
  | .leaf t => some t.kind
  | .block .. => none

def isCurly : Node → Bool
  | .block (.bracket .curly) _ _ _ => true
  | _ => false

theorem listTokens_append (ms ns : List Node) : listTokens (ms ++ ns) = listTokens ms ++ listTokens ns := by
  induction ms with
  | nil => rfl
  | cons m ms ih => simp [listTokens, ih]

end Node

/-- A block that is still open: how it was opened, and the nodes before it, the last one first. -/
structure OpenBlock where
  opening : Opening
  opener : Token
  before : List Node

/-- The nodes read so far: those of the innermost block, the last one first, and the open blocks around them. -/
structure Nesting where
  nodes : List Node := []
  blocks : List OpenBlock := []

namespace Nesting

/-- The innermost block ends, and is a node of the one around it. -/
def close (nodes : List Node) (b : OpenBlock) (closer : Option Token) : List Node :=
  .block b.opening b.opener nodes.reverse closer :: b.before

def push (s : Nesting) (t : Token) : Nesting :=
  match t.kind.opens?, s.blocks with
  | some opening, blocks => ⟨[], ⟨opening, t, s.nodes⟩ :: blocks⟩
  | none, [] => ⟨.leaf t :: s.nodes, []⟩
  | none, b :: outer =>
    if t.kind = .closing b.opening.closes then ⟨close s.nodes b (some t), outer⟩
    else ⟨.leaf t :: s.nodes, b :: outer⟩

/-- At the end of the source every open block ends without a closing token. -/
def finish (s : Nesting) : List Node :=
  (s.blocks.foldl (fun nodes b => close nodes b none) s.nodes).reverse

end Nesting

def Node.ofTokens (ts : List Token) : List Node :=
  (ts.foldl Nesting.push {}).finish

end StyleAudit.Css
