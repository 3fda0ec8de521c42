import StyleAudit.Css.Reading
import StyleAudit.Proofs.TokenSpans
/-!
Reading a style sheet by positions. A cursor goes over the tokens, and what is read is up to routines that look at the
token under the cursor, move it, and call one another. They watch over themselves: a loop that goes around without
moving forward, a call that moves back, and an index or a span that reaches beyond the tokens or the source are faults.
-/
namespace StyleAudit.Css

namespace TokenKind

def isAtKeyword : TokenKind → Bool
  | .atKeyword _ => true
  | _ => false

def isIdent : TokenKind → Bool
  | .ident _ => true
  | _ => false

theorem eq_atKeyword {kind : TokenKind} (h : kind.isAtKeyword = true) : ∃ name, kind = .atKeyword name := by
  cases kind with
  | atKeyword name => exact ⟨name, rfl⟩
  | _ => cases h

theorem eq_ident {kind : TokenKind} (h : kind.isIdent = true) : ∃ name, kind = .ident name := by
  cases kind with
  | ident name => exact ⟨name, rfl⟩
  | _ => cases h

end TokenKind

/-- Tokens, and the source that their places are in. -/
structure Input where
  source : List Char
  tokens : List Token

/-- How many tokens are behind the cursor, and the issues met so far. -/
structure Cursor where
  position : Nat := 0
  issues : List Issue := []

inductive Fault where
  /-- A loop went around and the cursor did not move forward. -/
  | stuck
  /-- A call left the cursor in front of where it was. -/
  | movedBack
  | noToken (index : Nat)
  | noTokens (start stop : Nat)
  | noText (start stop : Nat)
  | outOfFuel
  deriving DecidableEq, Repr

abbrev Routine (α : Type) := StateT Cursor (Except Fault) α

namespace Routine

def position : Routine Nat := fun c => .ok (c.position, c)

/-- One round of a loop. -/
def round {α : Type} (body : Routine α) : Routine α := fun c =>
  match body c with
  | .error fault => .error fault
  | .ok (a, c') => if c.position < c'.position then .ok (a, c') else .error .stuck

/-- A call of another routine. -/
def call {α : Type} (body : Routine α) : Routine α := fun c =>
  match body c with
  | .error fault => .error fault
  | .ok (a, c') => if c.position ≤ c'.position then .ok (a, c') else .error .movedBack

def reportOn (line : Nat) (defect : Defect) : Routine Unit := fun c =>
  .ok ((), { c with issues := c.issues ++ [⟨defect, line⟩] })

section
variable (input : Input)

/-- The line of the token at a position; behind the tokens, that of the last one. -/
def lineAt (position : Nat) : Nat := ((input.tokens[position]?).or input.tokens.getLast?).elim 0 Token.line

def report (defect : Defect) : Routine Unit := fun c => reportOn (lineAt input c.position) defect c

def reportIf (condition : Bool) (defect : Defect) : Routine Unit := if condition then report input defect else pure ()

/-- The kind of the token under the cursor, if there is one. -/
def peek : Routine (Option TokenKind) := fun c => .ok ((input.tokens[c.position]?).map Token.kind, c)

/-- The token under the cursor, which moves on. -/
def next : Routine (Option Token) := fun c =>
  match input.tokens[c.position]? with
  | none => .ok (none, c)
  | some t => .ok (some t, { c with position := c.position + 1 })

/-- A token is passed over if it is of that kind; whether it was. -/
def nextIf (kind : TokenKind) : Routine Bool := do
  if (← peek input) = some kind then
    let _ ← next input
    return true
  else return false

/-! Texts. -/

def tokenAt (index : Nat) : Routine Token :=
  match input.tokens[index]? with
  | some t => pure t
  | none => throw (.noToken index)

def tokensBetween (start stop : Nat) : Routine (List Token) :=
  if start ≤ stop ∧ stop ≤ input.tokens.length then pure ((input.tokens.drop start).take (stop - start))
  else throw (.noTokens start stop)

/-- A token with its text taken from the source. White space has none that would be kept. -/
def spelled (t : Token) : Routine Token :=
  if t.kind = .whitespace then pure t
  else if t.start ≤ t.stop ∧ t.stop ≤ input.source.length then
    pure { t with lexeme := slice input.source t.start t.stop }
  else throw (.noText t.start t.stop)

/-- The compact text of the tokens between two positions. -/
def textBetween (start stop : Nat) : Routine String := do
  let part ← tokensBetween input start stop
  let part ← (part.filter (·.kind ≠ .endOfSource)).mapM (spelled input)
  return String.ofList (compactText part)

/-- The texts between the commas that are outside of all brackets: `count` tokens from `index` on are still to be looked
at, and the text that goes on there began at `start`. -/
def textsFrom (depth start index : Nat) : Nat → Routine (List String)
  | 0 => do return [← textBetween input start index]
  | count + 1 => do
    let t ← tokenAt input index
    if t.kind.opensBlock then textsFrom (depth + 1) start (index + 1) count
    else if t.kind.closesBlock then textsFrom (depth - 1) start (index + 1) count
    else if t.kind = .comma ∧ depth = 0 then
      let text ← textBetween input start index
      let more ← textsFrom depth (index + 1) (index + 1) count
      return text :: more
    else textsFrom depth start (index + 1) count

/-- The selectors between two positions; empty ones are left out and reported once. -/
def selectorsBetween (line start stop : Nat) : Routine (List String) := do
  let texts ← textsFrom input 0 start start (stop - start)
  let kept := texts.filter (· ≠ "")
  if kept.length = texts.length then return kept
  else
    let _ ← reportOn line .emptySelector
    return kept

/-! Component values. -/

mutual
/-- The component value under the cursor; there is none at the end. -/
def value : Nat → Routine (Option ComponentValue)
  | 0 => throw .outOfFuel
  | fuel + 1 => do
    match ← peek input with
    | none => return none
    | some kind =>
      if kind = .endOfSource then return none
      else match kind.opens? with
        | some opening =>
          let _ ← next input
          let contents ← call (valuesUntil (· == .closing opening.closes) [] fuel)
          let _ ← nextIf input (.closing opening.closes)
          return some (.block opening contents)
        | none =>
          let t ← next input
          return t.map fun t => .token t.kind

/-- Component values up to the end, or up to a token at which they stop. -/
def valuesUntil (stops : TokenKind → Bool) (values : List ComponentValue) : Nat → Routine (List ComponentValue)
  | 0 => throw .outOfFuel
  | fuel + 1 => do
    match ← peek input with
    | none => return values
    | some kind =>
      if kind = .endOfSource ∨ stops kind then return values
      else
        let v ← round (call (value fuel))
        valuesUntil stops (values ++ v.toList) fuel
end

/-- Component values up to where they stop, and their text. -/
def valuesAndText (stops : TokenKind → Bool) (fuel : Nat) : Routine (List ComponentValue × String) := do
  let start ← position
  let values ← call (valuesUntil input stops [] fuel)
  let text ← textBetween input start (← position)
  return (values, text)

def skipSpace : Nat → Routine Unit
  | 0 => throw .outOfFuel
  | fuel + 1 => do
    if (← peek input) = some .whitespace then
      let _ ← round (next input)
      skipSpace fuel
    else return ()

/-! Declarations and rules. -/

/-- Where the value of a declaration ends. -/
def endsValue (kind : TokenKind) : Bool := kind == .semicolon || kind == .closing .curly

/-- Where the selectors of a rule end. -/
def endsSelectors (nested : Bool) (kind : TokenKind) : Bool :=
  kind == .opening .curly || (nested && kind == .closing .curly)

/-- Where the prelude of an at-rule ends. -/
def endsPrelude (nested : Bool) (kind : TokenKind) : Bool := kind == .semicolon || endsSelectors nested kind

/-- A declaration from its values and their text. -/
def declarationOf (name : String) (line : Nat) (values : List ComponentValue) (text : String) : Declaration :=
  match beforeImportant values.reverse with
  | some rest => ⟨name, (dropWhitespace rest).reverse, String.ofList (beforeLastBang text.toList), true, line⟩
  | none => ⟨name, (dropWhitespace values.reverse).reverse, text, false, line⟩

/-- An at-rule without a block, from the values of its prelude and their text. -/
def statementOf (name : String) (line : Nat) (values : List ComponentValue) (text : String) : Rule :=
  if name = "charset" then .charset line ((values.findSome? ComponentValue.address?).getD "")
  else if name = "import" then
    match values.filter (!·.isWhitespace) with
    | [] => .imported line "" ""
    | v :: media => .imported line (v.address?.getD "") (ComponentValue.spaced media)
  else .statement line name text

/-- The declaration whose name is under the cursor. -/
def declarationAt (fuel : Nat) : Routine (Option Declaration) := do
  match ← next input with
  | some ⟨.ident name, place, _⟩ =>
    let _ ← call (skipSpace input fuel)
    if ← nextIf input .colon then
      let _ ← call (skipSpace input fuel)
      let (values, text) ← call (valuesAndText input endsValue fuel)
      return some (declarationOf name place.line values text)
    else
      let _ ← report input (.noColon name)
      let _ ← call (valuesUntil input endsValue [] fuel)
      return none
  | _ => return none

mutual
/-- The rules of a list, with those read already. A nested list ends with its closing bracket, which is passed over. -/
def ruleList (nested : Bool) (rules : List Rule) : Nat → Routine (List Rule)
  | 0 => throw .outOfFuel
  | fuel + 1 => do
    match ← peek input with
    | none =>
      let _ ← reportIf input nested .unclosedGroup
      return rules
    | some kind =>
      if kind = .endOfSource then
        let _ ← reportIf input nested .unclosedGroup
        return rules
      else if kind = .whitespace then
        let _ ← round (next input)
        ruleList nested rules fuel
      else if kind = .closing .curly then
        let _ ← round (next input)
        if nested then return rules
        else
          let _ ← report input .strayBrace
          ruleList nested rules fuel
      else if (kind = .commentOpen ∨ kind = .commentClose) ∧ nested = false then
        let _ ← round (next input)
        ruleList nested rules fuel
      else if kind.isAtKeyword then
        let rule ← round (call (atRule nested fuel))
        ruleList nested (rules ++ rule.toList) fuel
      else
        let rule ← round (call (styleRule nested fuel))
        ruleList nested (rules ++ (rule.map Rule.style).toList) fuel

/-- The declarations of a list, with those read already, up to the closing bracket of the block around it. -/
def declarationList (declarations : List Declaration) : Nat → Routine (List Declaration)
  | 0 => throw .outOfFuel
  | fuel + 1 => do
    match ← peek input with
    | none => return declarations
    | some kind =>
      if kind = .endOfSource ∨ kind = .closing .curly then return declarations
      else if kind = .whitespace ∨ kind = .semicolon then
        let _ ← round (next input)
        declarationList declarations fuel
      else if kind.isAtKeyword then
        let _ ← round (call (atRule true fuel))
        declarationList declarations fuel
      else if kind.isIdent then
        let declaration ← round (call (declarationAt input fuel))
        declarationList (declarations ++ declaration.toList) fuel
      else
        let _ ← report input (.unexpected kind)
        let _ ← round (call (value input fuel))
        let _ ← call (valuesUntil input endsValue [] fuel)
        declarationList declarations fuel

/-- The at-rule whose keyword is under the cursor. -/
def atRule (nested : Bool) : Nat → Routine (Option Rule)
  | 0 => throw .outOfFuel
  | fuel + 1 => do
    match ← next input with
    | some ⟨.atKeyword name, place, _⟩ =>
      let (prelude, text) ← call (valuesAndText input (endsPrelude nested) fuel)
      if ← nextIf input (.opening .curly) then
        let rule ← call (atBlock name.toLower place.line text fuel)
        return some rule
      else
        let _ ← nextIf input .semicolon
        return some (statementOf name.toLower place.line prelude text)
    | _ => return none

/-- The at-rule with the given name and prelude, whose block has just been opened. -/
def atBlock (name : String) (line : Nat) (prelude : String) : Nat → Routine Rule
  | 0 => throw .outOfFuel
  | fuel + 1 =>
    match BlockKind.ofName name with
    | .rules => do
      let rules ← call (ruleList true [] fuel)
      return .group line name prelude rules
    | .keyframes => do
      let rules ← call (ruleList true [] fuel)
      return .keyframes line name prelude (rules.filterMap Rule.style?)
    | .declarations => do
      let declarations ← call (declarationList [] fuel)
      let closed ← nextIf input (.closing .curly)
      let _ ← reportIf input (!closed) (.unclosedBlock name)
      return .descriptors line name prelude declarations

/-- The style rule under the cursor. -/
def styleRule (nested : Bool) : Nat → Routine (Option StyleRule)
  | 0 => throw .outOfFuel
  | fuel + 1 => do
    let start ← position
    let line := ((input.tokens[start]?).map Token.line).getD 0
    let _ ← call (valuesUntil input (endsSelectors nested) [] fuel)
    let stop ← position
    if (← peek input) = some (.opening .curly) then
      let names ← selectorsBetween input line start stop
      let _ ← next input
      let declarations ← call (declarationList [] fuel)
      let _ ← nextIf input (.closing .curly)
      return some ⟨line, names, declarations⟩
    else
      let _ ← report input .noBlock
      return none
end

/-- The style sheet that the tokens make up, and where the cursor is when it is read. -/
def stylesheet (fuel : Nat) : Except Fault (Stylesheet × Nat) :=
  match ruleList input false [] fuel {} with
  | .error fault => .error fault
  | .ok (rules, c) => .ok (⟨rules, c.issues⟩, c.position)

end
end Routine
end StyleAudit.Css
