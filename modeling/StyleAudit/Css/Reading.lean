import StyleAudit.Text.Blank
import StyleAudit.Css.Stylesheet
/-!
Reading a style sheet from its nodes. Reading never fails: what makes no sense is recorded as an issue and reading goes
on with the next rule or declaration. Every function goes through a list of nodes once, and into a block only where
rules or declarations are expected.
-/
namespace StyleAudit.Css

/-- What was read, in order, and the issues met on the way, in order. -/
structure Reading (α : Type) where
  items : List α := []
  issues : List Issue := []

namespace Reading

def item {α : Type} (a : α) : Reading α := ⟨[a], []⟩

def issue {α : Type} (defect : Defect) (line : Nat) : Reading α := ⟨[], [⟨defect, line⟩]⟩

instance {α : Type} : Append (Reading α) :=
  ⟨fun r s => ⟨r.items ++ s.items, r.issues ++ s.issues⟩⟩

/-- The issues alone. -/
def discard {α β : Type} (r : Reading α) : Reading β := ⟨[], r.issues⟩

@[simp] theorem items_append {α : Type} (r s : Reading α) : (r ++ s).items = r.items ++ s.items := rfl
@[simp] theorem issues_append {α : Type} (r s : Reading α) : (r ++ s).issues = r.issues ++ s.issues := rfl

end Reading

/-- How a list of nodes ends: by a closing token or with the source, and on which line. -/
structure Ending where
  closed : Bool
  line : Nat
  deriving DecidableEq, Repr

/-- The ending of a block in a list that ends in the given way. An unclosed block ends with the source. -/
def Ending.ofCloser (outer : Ending) : Option Token → Ending
  | some t => ⟨true, t.line⟩
  | none => ⟨false, outer.line⟩

/-- The line of the next token behind a node. -/
def Ending.next (stop : Ending) : List Node → Nat
  | [] => stop.line
  | n :: _ => n.line

/-- Source text from which comments and outer white space are gone. White space inside is one space, and none next to a
comma. `last` is the character the text so far ends in, and `space` tells whether white space followed it. -/
def compactFrom (last : Option Char) (space : Bool) : List Token → List Char
  | [] => []
  | t :: rest =>
    if t.kind = .whitespace then compactFrom last true rest
    else
      let gap := if space && last.isSome && last != some ',' && t.kind != .comma then [' '] else []
      gap ++ t.lexeme ++ compactFrom (t.lexeme.getLast?.or last) false rest

/-- The text of tokens as the style sheet keeps it. -/
def compactText (ts : List Token) : List Char := compactFrom none false ts

/-- The text of nodes, the last one first. -/
def textOf (nodes : List Node) : String := String.ofList (compactText (Node.listTokens nodes.reverse))

/-- The tokens between the commas that are outside of all brackets. -/
def splitSelectors (depth : Nat) : List Token → List (List Token)
  | [] => [[]]
  | t :: rest =>
    if t.kind = .comma ∧ depth = 0 then [] :: splitSelectors 0 rest
    else
      let inner := if t.kind.opensBlock then depth + 1 else if t.kind.closesBlock then depth - 1 else depth
      match splitSelectors inner rest with
      | [] => [[t]]
      | selector :: more => (t :: selector) :: more

/-- The selectors of a style rule; empty ones are left out and reported once. -/
def selectors (line : Nat) (nodes : List Node) : Reading String :=
  let texts := (splitSelectors 0 (Node.listTokens nodes.reverse)).map fun ts => String.ofList (compactText ts)
  let kept := texts.filter (· ≠ "")
  ⟨kept, if kept.length = texts.length then [] else [⟨.emptySelector, line⟩]⟩

/-- Values without white space at the front, the last one first. -/
def dropWhitespace (values : List ComponentValue) : List ComponentValue :=
  values.dropWhile ComponentValue.isWhitespace

/-- Whether values, the last one first, begin with the word `important`, and what is before the word. -/
def beforeImportantWord : List ComponentValue → Option (List ComponentValue)
  | .token (.ident word) :: rest => if word.toLower = "important" then some (dropWhitespace rest) else none
  | _ => none

/-- The values before an `!important` mark at the end of a value, the last one first. -/
def beforeImportant (values : List ComponentValue) : Option (List ComponentValue) :=
  match beforeImportantWord (dropWhitespace values) with
  | some (.token (.delim '!') :: rest) => some rest
  | _ => none

/-- A text up to its last exclamation mark, without blanks at the end. -/
def beforeLastBang (text : List Char) : List Char :=
  if '!' ∈ text then Text.trimEnd ((text.reverse.dropWhile (· ≠ '!')).drop 1).reverse else Text.trimEnd text

/-- A declaration, from the nodes of its value, the last one first. -/
def declaration (name : String) (line : Nat) (nodes : List Node) : Declaration :=
  let values := ComponentValue.ofNodes nodes
  let text := compactText (Node.listTokens nodes.reverse)
  match beforeImportant values with
  | some rest =>
    ⟨name, (dropWhitespace rest).reverse, String.ofList (beforeLastBang text), true, line⟩
  | none => ⟨name, (dropWhitespace values).reverse, String.ofList text, false, line⟩

/-- An at-rule that has no block. -/
def atRuleWithoutBlock (name : String) (line : Nat) (prelude : List Node) : Rule :=
  let values := ComponentValue.ofNodes prelude.reverse
  if name = "charset" then .charset line ((values.findSome? ComponentValue.address?).getD "")
  else if name = "import" then
    match values.filter (!·.isWhitespace) with
    | [] => .imported line "" ""
    | v :: media => .imported line (v.address?.getD "") (ComponentValue.spaced media)
  else .statement line name (textOf prelude)

/-- What the block of an at-rule holds. -/
inductive BlockKind where
  | rules
  | keyframes
  | declarations
  deriving DecidableEq, Repr

/-- The at-rules whose block holds rules. -/
def groupNames : List String := ["media", "supports", "document", "-moz-document", "container", "layer"]

def BlockKind.ofName (name : String) : BlockKind :=
  if name ∈ groupNames then .rules
  else if "keyframes".toList <:+ name.toList then .keyframes
  else .declarations

/-- What a list of rules still waits for; nodes are kept with the last one first. -/
inductive PendingRule where
  | nothing
  | style (line : Nat) (nodes : List Node)
  | atRule (name : String) (line : Nat) (nodes : List Node)

/-- What a list of declarations still waits for. -/
inductive PendingDeclaration where
  | nothing
  | colon (name : String) (line : Nat)
  | value (name : String) (line : Nat) (nodes : List Node)
  | skipped
  | atRule (name : String) (line : Nat) (nodes : List Node)

/-- What is reported when a list of rules ends. -/
def endOfRules (nested : Bool) (stop : Ending) : Reading Rule :=
  if nested && !stop.closed then .issue .unclosedGroup stop.line else {}

mutual
/-- The rules of a list of nodes. In a nested list the marks `<!--` and `-->` are part of a rule. -/
def readRules (nested : Bool) (stop : Ending) (pending : PendingRule) : List Node → Reading Rule
  | [] =>
    match pending with
    | .nothing => endOfRules nested stop
    | .style .. => .issue .noBlock stop.line ++ endOfRules nested stop
    | .atRule name line prelude => .item (atRuleWithoutBlock name line prelude) ++ endOfRules nested stop
  | n :: rest =>
    match pending with
    | .nothing =>
      match n.kind? with
      | some .whitespace => readRules nested stop .nothing rest
      | some (.atKeyword name) => readRules nested stop (.atRule name.toLower n.line []) rest
      | kind =>
        if n.isCurly then readStyleBlock stop n.line [] n ++ readRules nested stop .nothing rest
        else if kind = some (.closing .curly) then
          .issue .strayBrace (stop.next rest) ++ readRules nested stop .nothing rest
        else if (kind = some .commentOpen ∨ kind = some .commentClose) ∧ nested = false then
          readRules nested stop .nothing rest
        else readRules nested stop (.style n.line [n]) rest
    | .style line nodes =>
      if n.isCurly then readStyleBlock stop line nodes n ++ readRules nested stop .nothing rest
      else readRules nested stop (.style line (n :: nodes)) rest
    | .atRule name line nodes =>
      if n.isCurly then readAtBlock stop name line nodes n ++ readRules nested stop .nothing rest
      else if n.kind? = some .semicolon then
        .item (atRuleWithoutBlock name line nodes) ++ readRules nested stop .nothing rest
      else readRules nested stop (.atRule name line (n :: nodes)) rest
termination_by structural nodes => nodes

/-- The declarations of a list of nodes. At-rules among them are read for their issues and left out. -/
def readDeclarations (stop : Ending) (pending : PendingDeclaration) : List Node → Reading Declaration
  | [] =>
    match pending with
    | .nothing | .skipped | .atRule .. => {}
    | .colon name _ => .issue (.noColon name) stop.line
    | .value name line nodes => .item (declaration name line nodes)
  | n :: rest =>
    match pending with
    | .nothing =>
      match n.kind? with
      | some .whitespace | some .semicolon => readDeclarations stop .nothing rest
      | some (.atKeyword name) => readDeclarations stop (.atRule name.toLower n.line []) rest
      | some (.ident name) => readDeclarations stop (.colon name n.line) rest
      | _ => .issue (.unexpected n.first.kind) n.line ++ readDeclarations stop .skipped rest
    | .colon name line =>
      match n.kind? with
      | some .whitespace => readDeclarations stop (.colon name line) rest
      | some .colon => readDeclarations stop (.value name line []) rest
      | some .semicolon => .issue (.noColon name) n.line ++ readDeclarations stop .nothing rest
      | _ => .issue (.noColon name) n.line ++ readDeclarations stop .skipped rest
    | .value name line nodes =>
      if n.kind? = some .semicolon then
        .item (declaration name line nodes) ++ readDeclarations stop .nothing rest
      else if n.kind? = some .whitespace ∧ nodes.isEmpty then readDeclarations stop (.value name line []) rest
      else readDeclarations stop (.value name line (n :: nodes)) rest
    | .skipped =>
      if n.kind? = some .semicolon then readDeclarations stop .nothing rest
      else readDeclarations stop .skipped rest
    | .atRule name line nodes =>
      if n.isCurly then (readAtBlock stop name line nodes n).discard ++ readDeclarations stop .nothing rest
      else if n.kind? = some .semicolon then readDeclarations stop .nothing rest
      else readDeclarations stop (.atRule name line (n :: nodes)) rest
termination_by structural nodes => nodes

/-- The style rule with the given selectors whose block is the node. -/
def readStyleBlock (stop : Ending) (line : Nat) (nodes : List Node) : Node → Reading Rule
  | .leaf _ => {}
  | .block _ _ contents closer =>
    let names := selectors line nodes
    let body := readDeclarations (stop.ofCloser closer) .nothing contents
    names.discard ++ body.discard ++ .item (.style ⟨line, names.items, body.items⟩)
termination_by structural node => node

/-- The at-rule with the given name and prelude whose block is the node. -/
def readAtBlock (stop : Ending) (name : String) (line : Nat) (prelude : List Node) : Node → Reading Rule
  | .leaf _ => {}
  | .block _ _ contents closer =>
    let inner := stop.ofCloser closer
    match BlockKind.ofName name with
    | .rules =>
      let body := readRules true inner .nothing contents
      body.discard ++ .item (.group line name (textOf prelude) body.items)
    | .keyframes =>
      let body := readRules true inner .nothing contents
      body.discard ++ .item (.keyframes line name (textOf prelude) (body.items.filterMap Rule.style?))
    | .declarations =>
      let body := readDeclarations inner .nothing contents
      let unclosed := if inner.closed then {} else Reading.issue (.unclosedBlock name) inner.line
      body.discard ++ unclosed ++ .item (.descriptors line name (textOf prelude) body.items)
termination_by structural node => node
end

namespace Stylesheet

/-- The line that the end of a token list is on: that of its end mark, or else of its last token. -/
def endLine (ts : List Token) : Nat :=
  match ts.find? (·.kind = .endOfSource) with
  | some t => t.line
  | none => (ts.getLast?.map Token.line).getD 0

/-- The style sheet that a list of tokens makes up. The tokens may be cut off at any place; what stands behind an end
mark is not read. -/
def ofTokens (ts : List Token) : Stylesheet :=
  let nodes := Node.ofTokens (ts.takeWhile (·.kind ≠ .endOfSource))
  let read := readRules false ⟨false, endLine ts⟩ .nothing nodes
  ⟨read.items, read.issues⟩

def ofText (css : String) : Stylesheet := ofTokens (tokenize css)

end Stylesheet
end StyleAudit.Css
