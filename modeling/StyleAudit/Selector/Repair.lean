import StyleAudit.Text.Blank
import StyleAudit.Findings.Kind
import StyleAudit.Selector.Edit
import StyleAudit.Selector.PseudoName
/-!
Mending selectors that are malformed but meant. Each of twelve rules knows one kind of fault and finds the edits that
mend it. They run in a fixed order, each on what the one before has left.
-/
namespace StyleAudit.Selector

open PseudoName (plain function)

/-- The local rule that looks for pseudo names behind the given colons; `replace` gets the matched text and gives what
takes its place, or nothing to leave it. -/
def pseudoRule (colons : Colons) (names : List PseudoName) (replace : List Char → Option (List Char)) : LocalRule :=
  fun previous text =>
    match colons.behind? previous text with
    | none => none
    | some rest =>
      match PseudoName.find? names rest with
      | none => none
      | some size =>
        let size := colons.count + size
        (replace (text.take size)).map (size, ·)

/-- A matched text with the parentheses of its argument taken apart: what is before them, and what is in them. -/
def splitArgument (matched : List Char) : List Char × List Char :=
  (matched.takeWhile (· ≠ '('), ((matched.dropWhile (· ≠ '(')).drop 1).dropLast)

/-- Pseudo-elements that are often written with one colon. -/
def singleColonElements : List PseudoName :=
  [plain "after", plain "before", plain "placeholder", plain "selection", plain "first-letter", plain "first-line",
    plain "backdrop", function "cue", plain "cue", plain "grammar-error", plain "marker", function "slotted",
    plain "slotted", plain "spelling-error"]

def doubleColonClasses : List PseudoName :=
  [plain "visited", plain "hover", plain "link", plain "focus", plain "active", plain "empty", plain "checked",
    plain "disabled", plain "first-child", plain "first-of-type", plain "last-child", plain "last-of-type",
    function "not", function "nth-child", plain "required", function "nth-last-child", function "nth-last-of-type",
    function "nth-of-type", plain "only-child", plain "only-of-type", plain "valid", plain "invalid",
    plain "indeterminate", plain "any", plain "any-link", plain "default", plain "defined", function "dir",
    plain "enabled", plain "first", plain "fullscreen", plain "host", function "host", function "host-context",
    plain "in-range", function "lang", plain "left", plain "optional", plain "out-of-range", plain "read-only",
    plain "read-write", plain "right", plain "root", plain "scope", plain "target"]

/-- Pseudo-classes in which a position of zero is mended. -/
def zeroPositionClasses : List PseudoName := [function "nth-child", function "nth-of-type", function "nth-last-child"]

def positionNames : List String := ["nth-child", "nth-last-child", "nth-of-type", "nth-last-of-type"]

def vendorMarks : List String := [":-ms-", ":-webkit-", ":-moz-", ":-o-"]

def experimentalElements : List PseudoName :=
  [plain "placeholder", plain "backdrop", plain "marker", plain "spelling-error", plain "grammar-error"]

def unsupportedElements : List PseudoName :=
  [plain "selection", function "cue", plain "cue", function "slotted", plain "slotted"]

def experimentalClasses : List PseudoName :=
  [plain "any-link", function "dir", plain "fullscreen", function "host", function "host-context"]

def unsupportedClasses : List PseudoName :=
  [plain "required", plain "valid", plain "default", plain "defined", plain "first", plain "host", plain "in-range",
    plain "indeterminate", plain "invalid", plain "left", plain "optional", plain "out-of-range", plain "read-only",
    plain "read-write", plain "right", plain "scope"]

/-- A second colon for a pseudo-element. -/
def secondColon : LocalRule := pseudoRule .one singleColonElements fun matched => some (':' :: matched)

/-- One colon less for a pseudo-class. -/
def oneColon : LocalRule := pseudoRule .two doubleColonClasses fun matched => some (matched.drop 1)

/-- A position of zero becomes `0n`. -/
def zeroPosition : LocalRule :=
  pseudoRule .one zeroPositionClasses fun matched =>
    let (name, argument) := splitArgument matched
    if Text.trim argument = ['0'] then some (name ++ "(0n)".toList) else none

/-- Zero-width characters go, each by an edit of its own. -/
def zeroWidth : LocalRule := fun _ text =>
  match text with
  | c :: _ => if '\u200b' ≤ c ∧ c ≤ '\u200d' then some (1, []) else none
  | [] => none

/-- How far a vendor's pseudo reaches: its mark, a word behind that, and an argument. -/
def vendorSize? (text : List Char) : Option Nat :=
  match vendorMarks.find? fun mark => beginsWith mark.toList text with
  | none => none
  | some mark =>
    let rest := text.drop mark.length
    let word := (rest.takeWhile fun c => c.isAlphanum || c == '-').length
    some (mark.length + word + (argument? (rest.drop word)).getD 0)

/-- A vendor's pseudo goes, whether it has one colon or two. -/
def vendorPseudo : LocalRule := fun _ text =>
  match text with
  | ':' :: ':' :: rest => (vendorSize? (':' :: rest)).map (1 + ·, [])
  | _ => (vendorSize? text).map (·, [])

/-- A negation of nothing goes. -/
def emptyNegation : LocalRule :=
  pseudoRule .one [function "not"] fun matched =>
    if Text.trim (splitArgument matched).2 = [] then some [] else none

/-- Pseudos of the given names go. -/
def removal (colons : Colons) (names : List PseudoName) : LocalRule := pseudoRule colons names fun _ => some []

/-- The places in a text at which a predicate holds of what follows, with what follows. -/
def places (p : List Char → Bool) (position : Nat) : List Char → List (Nat × List Char)
  | [] => []
  | c :: rest =>
    if p (c :: rest) then (position, c :: rest) :: places p (position + 1) rest else places p (position + 1) rest

/-- The offset at which a text holds the given characters for the last time. -/
def lastIndex? (part text : List Char) : Option Nat :=
  ((places (fun rest => part.isPrefixOf rest) 0 text).getLast?).map Prod.fst

/-- Whether a text begins with a negation whose argument begins with a quote. -/
def startsQuotedNegation (text : List Char) : Bool :=
  beginsWith ":not(".toList text && (match text.drop 5 with | c :: _ => c == '"' || c == '\'' | [] => false)

/-- The first quoted argument of a negation loses its quotes. It ends at the last such quote in front of a closing
parenthesis, and is not empty. -/
def quotedNegation (text : List Char) : List Edit :=
  match (places startsQuotedNegation 0 text).head? with
  | none => []
  | some (start, found) =>
    let quote := (found.drop 5).take 1
    let inner := found.drop 6
    match lastIndex? (quote ++ [')']) inner with
    | none | some 0 => []
    | some size => [⟨start, 6 + size + 2, found.take 4 ++ '(' :: (inner.take size ++ [')'])⟩]

/-- The name of a pseudo-class that takes a position, where its argument begins with a class or an id. -/
def selectorPosition? (text : List Char) : Option (List Char) :=
  match positionNames.find? fun name => beginsWith (':' :: (name.toList ++ ['('])) text with
  | none => none
  | some name =>
    match text.drop (name.length + 2) with
    | c :: _ => if c = '.' ∨ c = '#' then some ((text.drop 1).take name.length) else none
    | [] => none

/-- The first position that is a class or an id becomes `0n`. It ends at the last closing parenthesis. -/
def selectorPosition (text : List Char) : List Edit :=
  match (places (fun rest => (selectorPosition? rest).isSome) 0 text).head? with
  | none => []
  | some (start, found) =>
    let name := (selectorPosition? found).getD []
    match lastIndex? [')'] found with
    | none => []
    | some close => [⟨start, close + 1, ':' :: (name ++ "(0n)".toList)⟩]

/-- A rule finds the edits for one kind of fault. The repairs of a silent rule have no kind and are not recorded. -/
structure RepairRule where
  kind : Option RepairKind
  edits : List Char → List Edit

def repairRules : List RepairRule :=
  [⟨some .pseudoElementConfusion, secondColon.edits⟩,
    ⟨some .pseudoClassConfusion, oneColon.edits⟩,
    ⟨some .ordinality, zeroPosition.edits⟩,
    ⟨some .badCharacters, zeroWidth.edits⟩,
    ⟨some .quotedNegation, quotedNegation⟩,
    ⟨some .badPosition, selectorPosition⟩,
    ⟨some .vendorExtension, vendorPseudo.edits⟩,
    ⟨some .emptyNegation, emptyNegation.edits⟩,
    ⟨some .experimentalPseudoElement, (removal .two experimentalElements).edits⟩,
    ⟨none, (removal .two unsupportedElements).edits⟩,
    ⟨some .experimentalPseudoClass, (removal .one experimentalClasses).edits⟩,
    ⟨none, (removal .one unsupportedClasses).edits⟩]

/-- A text after some rules, how many edits they made, and those that were recorded, with the kind of each. -/
structure Repairing where
  text : List Char
  count : Nat
  recorded : List (RepairKind × Replacement)
  deriving DecidableEq, Repr

/-- One rule, within the repair of the selector `before`. -/
def RepairRule.run (before : List Char) (r : Repairing) (rule : RepairRule) : Repairing :=
  let edits := rule.edits r.text
  let replacement (e : Edit) : Replacement :=
    ⟨String.ofList before, String.ofList (e.matched r.text), String.ofList e.replacement⟩
  { text := Edit.applyAll r.text edits
    count := r.count + edits.length
    recorded := r.recorded ++ match rule.kind with
      | some kind => edits.map fun e => (kind, replacement e)
      | none => [] }

/-- One repair of a selector: every rule once, and the blanks around what is left taken off. -/
def repair (selector : List Char) : Repairing :=
  let r := repairRules.foldl (RepairRule.run selector) ⟨selector, 0, []⟩
  { r with text := Text.trim r.text }

end StyleAudit.Selector
