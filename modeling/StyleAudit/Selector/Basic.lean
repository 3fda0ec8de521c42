/-!
Selectors that the audit models: lists of complex selectors, each a chain of compounds, each of these a run of simple
selectors on one element.
-/
namespace StyleAudit.Selector

/-- The elements `step * n + offset` of a list of siblings, for every `n` from zero on. -/
structure Position where
  step : Int
  offset : Int
  deriving DecidableEq, Repr, Inhabited

namespace Position

/-- A number with its sign, also when it is positive. -/
def signed (n : Int) : String := (if n < 0 then "" else "+") ++ toString n

/-- The usual notation; a part that is zero is left out, the offset only beside a step. -/
def text (p : Position) : String :=
  if p.step = 0 then toString p.offset
  else if p.offset = 0 then toString p.step ++ "n"
  else toString p.step ++ "n" ++ signed p.offset

end Position

/-- Pseudo-classes without an argument. -/
inductive PseudoClass where
  | root
  | firstChild
  | lastChild
  | firstOfType
  | lastOfType
  | onlyChild
  | onlyOfType
  | empty
  | link
  | visited
  | hover
  | active
  | focus
  | target
  | enabled
  | disabled
  | checked
  deriving DecidableEq, Repr

namespace PseudoClass

def all : List PseudoClass :=
  [.root, .firstChild, .lastChild, .firstOfType, .lastOfType, .onlyChild, .onlyOfType, .empty, .link, .visited,
    .hover, .active, .focus, .target, .enabled, .disabled, .checked]

def name : PseudoClass → String
  | .root => "root"
  | .firstChild => "first-child"
  | .lastChild => "last-child"
  | .firstOfType => "first-of-type"
  | .lastOfType => "last-of-type"
  | .onlyChild => "only-child"
  | .onlyOfType => "only-of-type"
  | .empty => "empty"
  | .link => "link"
  | .visited => "visited"
  | .hover => "hover"
  | .active => "active"
  | .focus => "focus"
  | .target => "target"
  | .enabled => "enabled"
  | .disabled => "disabled"
  | .checked => "checked"

def ofName? (name : String) : Option PseudoClass := all.find? (·.name = name)

end PseudoClass

/-- Pseudo-classes whose argument is a position. -/
inductive PositionClass where
  | nthChild
  | nthLastChild
  | nthOfType
  | nthLastOfType
  deriving DecidableEq, Repr

namespace PositionClass

def all : List PositionClass := [.nthChild, .nthLastChild, .nthOfType, .nthLastOfType]

def name : PositionClass → String
  | .nthChild => "nth-child"
  | .nthLastChild => "nth-last-child"
  | .nthOfType => "nth-of-type"
  | .nthLastOfType => "nth-last-of-type"

def ofName? (name : String) : Option PositionClass := all.find? (·.name = name)

end PositionClass

inductive PseudoElement where
  | firstLine
  | firstLetter
  | before
  | after
  deriving DecidableEq, Repr

namespace PseudoElement

def all : List PseudoElement := [.firstLine, .firstLetter, .before, .after]

def name : PseudoElement → String
  | .firstLine => "first-line"
  | .firstLetter => "first-letter"
  | .before => "before"
  | .after => "after"

def ofName? (name : String) : Option PseudoElement := all.find? (·.name = name)

end PseudoElement

/-- How the value of an attribute is compared. -/
inductive AttributeTest where
  | equals
  | includes
  | dashes
  | starts
  | ends
  | contains
  deriving DecidableEq, Repr

namespace AttributeTest

def sign : AttributeTest → String
  | .equals => "="
  | .includes => "~="
  | .dashes => "|="
  | .starts => "^="
  | .ends => "$="
  | .contains => "*="

/-- The test that a character in front of an equals sign makes. -/
def ofSign? : Char → Option AttributeTest
  | '~' => some .includes
  | '|' => some .dashes
  | '^' => some .starts
  | '$' => some .ends
  | '*' => some .contains
  | _ => none

end AttributeTest

/-- One condition on an element. -/
inductive Simple where
  | element (name : String)
  | universal
  | nesting
  | className (name : String)
  | id (name : String)
  | hasAttribute (name : String) (test : Option (AttributeTest × String))
  | pseudoClass (pseudo : PseudoClass)
  | negation (argument : Simple)
  | language (range : String)
  | position (pseudo : PositionClass) (position : Position)
  | pseudoElement (pseudo : PseudoElement)
  deriving DecidableEq, Repr

/-- Conditions on one element. -/
abbrev Compound := List Simple

/-- How two elements are related. -/
inductive Combinator where
  | descendant
  | child
  | nextSibling
  | laterSibling
  | column
  deriving DecidableEq, Repr

def Combinator.sign : Combinator → String
  | .descendant => " "
  | .child => ">"
  | .nextSibling => "+"
  | .laterSibling => "~"
  | .column => "||"

/-- A chain of compounds, in source order, each after the first with the combinator before it. -/
structure Complex where
  first : Compound
  links : List (Combinator × Compound)
  deriving DecidableEq, Repr

namespace Complex

def compounds (c : Complex) : List Compound := c.first :: c.links.map Prod.snd

def combinators (c : Complex) : List Combinator := c.links.map Prod.fst

end Complex
end StyleAudit.Selector
