import StyleAudit.Selector.Basic
/-!
Chains: selectors as the audit looks at them. A chain goes through the compounds of a complex selector in source order;
nesting selectors and column combinators have no place in it.
-/
namespace StyleAudit.Selector

/-- What a chain keeps of a simple selector, and of the argument of a pseudo-class. -/
inductive Part where
  | element (name : String)
  | className (name : String)
  | id (name : String)
  | hasAttribute (name : String)
  | pseudoClass (name : String)
  | pseudoFunction (name : String) (argument : Part)
  | pseudoElement (name : String)
  | universal
  | position (position : Position)
  | language (range : String)
  deriving DecidableEq, Repr

/-- How the elements of two compounds are related. -/
inductive Relation where
  | child
  | descendant
  | nextSibling
  | laterSibling
  deriving DecidableEq, Repr

/-- The parts of a compound and, if there is more, how it is related to the chain behind it. -/
inductive Chain where
  | last (parts : List Part)
  | link (parts : List Part) (relation : Relation) (next : Chain)
  deriving DecidableEq, Repr

/-- What selectors may hold and chains may not. -/
inductive Unmodeled where
  | nesting
  | column
  deriving DecidableEq, Repr

def Simple.part : Simple → Except Unmodeled Part
  | .element name => .ok (.element name)
  | .universal => .ok .universal
  | .nesting => .error .nesting
  | .className name => .ok (.className name)
  | .id name => .ok (.id name)
  | .hasAttribute name _ => .ok (.hasAttribute name)
  | .pseudoClass pseudo => .ok (.pseudoClass pseudo.name)
  | .negation argument => argument.part.map (.pseudoFunction "not")
  | .language range => .ok (.pseudoFunction "lang" (.language range))
  | .position pseudo place => .ok (.pseudoFunction pseudo.name (.position place))
  | .pseudoElement pseudo => .ok (.pseudoElement pseudo.name)

def Combinator.relation : Combinator → Except Unmodeled Relation
  | .descendant => .ok .descendant
  | .child => .ok .child
  | .nextSibling => .ok .nextSibling
  | .laterSibling => .ok .laterSibling
  | .column => .error .column

/-- The chain of a compound and what follows it. Of several constructs that have no place in it, the one furthest to the
right counts; a compound counts before the combinator behind it. -/
def chainFrom (first : Compound) : List (Combinator × Compound) → Except Unmodeled Chain
  | [] => return .last (← first.mapM Simple.part)
  | (sign, compound) :: rest => do
    let next ← chainFrom compound rest
    let parts ← first.mapM Simple.part
    return .link parts (← sign.relation) next

def Complex.chain (c : Complex) : Except Unmodeled Chain := chainFrom c.first c.links

def chains (selectors : List Complex) : Except Unmodeled (List Chain) := selectors.mapM Complex.chain

namespace Chain

def parts : Chain → List Part
  | .last ps => ps
  | .link ps _ next => ps ++ next.parts

/-- The compounds of a chain, each with the relation to the next. -/
def steps : Chain → List (List Part × Option Relation)
  | .last ps => [(ps, none)]
  | .link ps relation next => (ps, some relation) :: next.steps

end Chain
end StyleAudit.Selector
