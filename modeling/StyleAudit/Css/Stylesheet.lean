import StyleAudit.Css.ComponentValue
/-!
Style sheets: rules sorted by shape, each with the line it starts on, and the issues met while reading them.
-/
namespace StyleAudit.Css

/-- A property and its value. The text of the value is kept as it was written, in compact form; neither it nor the
component values hold the `!important` mark. -/
structure Declaration where
  name : String
  value : List ComponentValue
  text : String
  important : Bool
  line : Nat
  deriving Repr

def Declaration.items (d : Declaration) : List String := ComponentValue.items d.value

/-- Selectors and the declarations for what they select. -/
structure StyleRule where
  line : Nat
  selectors : List String
  declarations : List Declaration
  deriving Repr

/-- A rule. An at-rule's name is held in lower case and without its `@`; its prelude is what stands between the name
and the block or semicolon. -/
inductive Rule where
  | style (rule : StyleRule)
  /-- A conditional group: an at-rule whose block holds rules. -/
  | group (line : Nat) (name prelude : String) (rules : List Rule)
  /-- An animation; what its keyword says in front of `keyframes` is kept. -/
  | keyframes (line : Nat) (keyword name : String) (frames : List StyleRule)
  | charset (line : Nat) (encoding : String)
  /-- An imported style sheet, and for which media. -/
  | imported (line : Nat) (url media : String)
  /-- Any other at-rule with a block, which holds declarations. -/
  | descriptors (line : Nat) (name prelude : String) (declarations : List Declaration)
  /-- Any other at-rule without a block. -/
  | statement (line : Nat) (name prelude : String)
  deriving Repr

def Rule.line : Rule → Nat
  | .style r => r.line
  | .group line .. | .keyframes line .. | .charset line _ | .imported line .. | .descriptors line ..
  | .statement line .. => line

def Rule.style? : Rule → Option StyleRule
  | .style r => some r
  | _ => none

/-- What was skipped or mended while reading. -/
inductive Defect where
  /-- A group of rules runs to the end of the source. -/
  | unclosedGroup
  | strayBrace
  /-- The block of the named at-rule runs to the end of the source. -/
  | unclosedBlock (name : String)
  | noBlock
  /-- A declaration starts with something that is no name. -/
  | unexpected (kind : TokenKind)
  | noColon (property : String)
  | emptySelector
  deriving DecidableEq, Repr

def Defect.message : Defect → String
  | .unclosedGroup => "block is not closed before the end of the stylesheet"
  | .strayBrace => "unmatched \x7d at the top level"
  | .unclosedBlock name => "@" ++ name ++ " block is not closed"
  | .noBlock => "rule has no declaration block"
  | .unexpected kind => "unexpected " ++ kind.display ++ " in declaration list"
  | .noColon property => "expected : after property " ++ property
  | .emptySelector => "empty selector in selector list"

/-- A defect and the line it was met on. -/
structure Issue where
  defect : Defect
  line : Nat
  deriving DecidableEq, Repr

def Issue.message (i : Issue) : String := i.defect.message

structure Stylesheet where
  rules : List Rule
  issues : List Issue
  deriving Repr

end StyleAudit.Css
