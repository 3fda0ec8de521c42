import StyleAudit.Text.Scan
import StyleAudit.Selector.Position
/-!
Reading selectors strictly. Nothing is mended here: a text is a selector list or it is rejected, with the first fault in
it. Each function takes the position of its text, so that a fault inside an argument points into the whole selector.
-/
namespace StyleAudit.Selector

open Text (Scan isHexDigit hexNumber charOfNumber replacement)

def reject {α : Type} (fault : Fault) (position : Nat) : Except Rejection α := .error ⟨fault, position⟩

/-- A letter, an underscore or a visible character past ASCII. -/
def isNameStart (c : Char) : Bool := (c.isAlpha || c == '_' || 128 ≤ c.toNat) && !isZeroWidth c

def isNameChar (c : Char) : Bool := isNameStart c || c.isDigit || c == '-'

/-- How many white space characters a text begins with. -/
def spaces (text : List Char) : Nat := (text.takeWhile isSpace).length

/-- Whether a text begins with an escape: a backslash with a character behind it that is no line feed. -/
def startsEscape : List Char → Bool
  | '\\' :: c :: _ => c != '\n'
  | _ => false

def startsIdent : List Char → Bool
  | [] => false
  | c :: rest =>
    if c = '-' then (match rest with | [] => false | d :: _ => isNameStart d || d == '-') || startsEscape rest
    else isNameStart c || startsEscape (c :: rest)

/-- The character that an escape stands for, read behind its backslash: up to six hexadecimal digits with one white
space character behind them, or any one character. -/
def escaped (text : List Char) : Scan Char :=
  let digits := (text.take 6).takeWhile isHexDigit
  if digits = [] then
    match text with
    | [] => ⟨replacement, 0⟩
    | c :: _ => ⟨c, 1⟩
  else
    let space := match text.drop digits.length with
      | [] => 0
      | c :: _ => if isSpace c then 1 else 0
    ⟨charOfNumber (hexNumber digits), digits.length + space⟩

/-- The characters of the name that a text begins with. -/
def nameChars (text : List Char) : Scan (List Char) :=
  match text with
  | [] => ⟨[], 0⟩
  | c :: rest =>
    if isNameChar c then (nameChars rest).behind 1 (c :: ·)
    else if startsEscape (c :: rest) then
      let e := escaped rest
      (nameChars (rest.drop e.size)).behind (1 + e.size) (e.value :: ·)
    else ⟨[], 0⟩
termination_by text.length
decreasing_by all_goals simp only [List.length_drop, List.length_cons]; omega

/-- A name of at least one character. -/
def name (role : NameRole) (pos : Nat) (text : List Char) : Except Rejection (Scan String) :=
  let n := nameChars text
  if n.value = [] then reject (.noName role) pos else .ok (n.map String.ofList)

/-- A name that is an identifier: it does not begin with a digit. -/
def ident (role : NameRole) (pos : Nat) (text : List Char) : Except Rejection (Scan String) :=
  if startsIdent text then name role pos text
  else match text with
    | c :: _ => reject (if isZeroWidth c then .unexpected c else .noName role) pos
    | [] => reject (.noName role) pos

/-- A string up to the given quote, read behind its first one. A backslash stands for the character behind it. -/
def string (quote : Char) (pos : Nat) : List Char → Except Rejection (Scan (List Char))
  | [] => reject .unclosedString pos
  | c :: rest =>
    if c = quote then .ok ⟨[], 1⟩
    else if c = '\\' then
      match rest with
      | [] => reject .unclosedString (pos + 1)
      | d :: more => (string quote (pos + 2) more).map (Scan.behind 2 (d :: ·))
    else if c = '\n' then reject .unclosedString (pos + 1)
    else (string quote (pos + 1) rest).map (Scan.behind 1 (c :: ·))

/-- How many characters stand before the parenthesis that ends an argument. Parentheses inside it are balanced, and
those in a quoted string do not count. -/
def argumentSize (depth : Nat) (quote : Option Char) : List Char → Option Nat
  | [] => none
  | c :: rest =>
    match quote with
    | some q =>
      if c = q then (argumentSize depth none rest).map (1 + ·)
      else if c = '\\' then
        match rest with
        | [] => none
        | _ :: more => (argumentSize depth quote more).map (2 + ·)
      else (argumentSize depth quote rest).map (1 + ·)
    | none =>
      if c = '"' ∨ c = '\'' then (argumentSize depth (some c) rest).map (1 + ·)
      else if c = '(' then (argumentSize (depth + 1) none rest).map (1 + ·)
      else if c = ')' then
        match depth with
        | 0 => some 0
        | outer + 1 => (argumentSize outer none rest).map (1 + ·)
      else (argumentSize depth none rest).map (1 + ·)

def attributeValue (pos : Nat) (text : List Char) : Except Rejection (Scan String) :=
  match text with
  | c :: rest =>
    if c = '"' ∨ c = '\'' then (string c (pos + 1) rest).map (Scan.behind 1 String.ofList)
    else ident .attributeValue pos text
  | [] => ident .attributeValue pos text

/-- The test of an attribute; none if the bracket closes and only existence is tested. -/
def attributeTest (pos : Nat) (text : List Char) : Except Rejection (Scan (Option AttributeTest)) :=
  match text with
  | [] => reject .malformedAttribute pos
  | ']' :: _ => .ok ⟨none, 1⟩
  | '=' :: _ => .ok ⟨some .equals, 1⟩
  | c :: '=' :: _ =>
    match AttributeTest.ofSign? c with
    | some test => .ok ⟨some test, 2⟩
    | none => reject .malformedAttribute (pos + 1)
  | _ :: _ => reject .malformedAttribute (pos + 1)

/-- The letters that say whether the case of a value counts. -/
def isCaseFlag (c : Char) : Bool := c == 'i' || c == 'I' || c == 's' || c == 'S'

/-- The end of an attribute selector: a case flag directly before the bracket, or the bracket. -/
def attributeEnd (pos : Nat) (text : List Char) : Except Rejection (Scan Unit) :=
  match text with
  | [] => reject .unclosedAttribute pos
  | c :: rest =>
    if c = ']' then .ok ⟨(), 1⟩
    else if isCaseFlag c then
      match rest with
      | ']' :: _ => .ok ⟨(), 2⟩
      | _ => reject .malformedAttribute pos
    else reject .unclosedAttribute (pos + 1)

/-- An attribute selector, read behind its bracket. -/
def attributeSelector (pos : Nat) (text : List Char) : Except Rejection (Scan Simple) := do
  let n := spaces text
  let name ← ident .attributeName (pos + n) (text.drop n)
  let n := n + name.size
  let n := n + spaces (text.drop n)
  let test ← attributeTest (pos + n) (text.drop n)
  let n := n + test.size
  match test.value with
  | none => return ⟨.hasAttribute name.value none, n⟩
  | some test =>
    let n := n + spaces (text.drop n)
    let value ← attributeValue (pos + n) (text.drop n)
    let n := n + value.size
    let n := n + spaces (text.drop n)
    let stop ← attributeEnd (pos + n) (text.drop n)
    return ⟨.hasAttribute name.value (some (test, value.value)), n + stop.size⟩

/-- A pseudo-class or pseudo-element, read behind its first colon. The argument of a negation is left to be read: where
it starts, and its size. -/
inductive Pseudo where
  | simple (simple : Simple)
  | negation (start size : Nat)

/-- A pseudo-element, when its name has been read. -/
def pseudoElement (pos : Nat) (name : String) (rest : List Char) : Except Rejection Simple :=
  match PseudoElement.ofName? name.toLower, rest.head? == some '(' with
  | some element, false => .ok (.pseudoElement element)
  | _, _ =>
    if (PseudoClass.ofName? name.toLower).isSome then reject (.twoColons name.toLower) pos
    else reject (.unknownPseudoElement name) pos

def plainPseudoClass (pos : Nat) (name : String) : Except Rejection Simple :=
  match PseudoClass.ofName? name.toLower with
  | some pseudo => .ok (.pseudoClass pseudo)
  | none =>
    if (PseudoElement.ofName? name.toLower).isSome then reject (.oneColon name.toLower) pos
    else reject (.unknownPseudoClass name) pos

def isLanguageChar (c : Char) : Bool := c.isAlphanum || c == '-'

/-- A language range: letters, digits and hyphens, blanks around them left aside. -/
def language (pos : Nat) (argument : List Char) : Except Rejection Simple :=
  let range := Text.trim argument
  if range ≠ [] ∧ range.all isLanguageChar then .ok (.language (String.ofList range))
  else reject .malformedLanguage pos

/-- A pseudo-class with an argument that is no selector. The argument starts at `start`, and the pseudo-class ends at
`stop`. -/
def pseudoFunction (start stop : Nat) (name : String) (argument : List Char) : Except Rejection Simple :=
  if name.toLower = "lang" then language start argument
  else match PositionClass.ofName? name.toLower with
    | some pseudo =>
      match Position.read argument with
      | .ok position => .ok (.position pseudo position)
      | .error fault => reject fault start
    | none => reject (.unknownFunction name) stop

def pseudo (pos : Nat) (text : List Char) : Except Rejection (Scan Pseudo) :=
  match text with
  | ':' :: rest => do
    let name ← ident .pseudo (pos + 1) rest
    let n := 1 + name.size
    let simple ← pseudoElement (pos + n) name.value (text.drop n)
    return ⟨.simple simple, n⟩
  | _ => do
    let name ← ident .pseudo pos text
    match text.drop name.size with
    | '(' :: rest =>
      let start := name.size + 1
      match argumentSize 0 none rest with
      | none => reject .unclosedArgument (pos + text.length)
      | some size =>
        if name.value.toLower = "not" then return ⟨.negation start size, start + size + 1⟩
        else
          let simple ← pseudoFunction (pos + start) (pos + start + size + 1) name.value (rest.take size)
          return ⟨.simple simple, start + size + 1⟩
    | _ =>
      let simple ← plainPseudoClass (pos + name.size) name.value
      return ⟨.simple simple, name.size⟩

/-- What a negation may hold: one simple selector that is no negation and no pseudo-element. -/
def single (pos : Nat) : Compound → Except Rejection Simple
  | [.negation _] => reject .nestedNegation pos
  | [.pseudoElement _] => reject .negatedPseudoElement pos
  | [simple] => .ok simple
  | _ => reject .notSingle pos

/-- Whether a character behind a simple selector begins another one or another compound. -/
def separates (c : Char) : Bool :=
  c == ' ' || c == '\t' || c == '\n' || c == '>' || c == '+' || c == '~' || c == ','

/-- The element name or asterisk that a compound begins with, if it does. -/
def typeSelector (pos : Nat) (text : List Char) : Except Rejection (Scan Compound) :=
  if text.head? = some '*' then .ok ⟨[.universal], 1⟩
  else if startsIdent text then (ident .element pos text).map (Scan.map fun name => [.element name])
  else .ok ⟨[], 0⟩

mutual
/-- The simple selectors that a text begins with, other than those that only the start of a compound may hold. -/
def simples (pos : Nat) (text : List Char) : Except Rejection (Scan Compound) :=
  match text with
  | [] => .ok ⟨[], 0⟩
  | c :: rest =>
    if c = ':' then
      match pseudo (pos + 1) rest with
      | .error e => .error e
      | .ok ⟨.simple simple, n⟩ => (simples (pos + (1 + n)) (rest.drop n)).map (Scan.behind (1 + n) (simple :: ·))
      | .ok ⟨.negation start size, n⟩ =>
        match negated (pos + 1 + start) ((rest.drop start).take size) with
        | .error e => .error e
        | .ok simple =>
          (simples (pos + (1 + n)) (rest.drop n)).map (Scan.behind (1 + n) (.negation simple :: ·))
    else if c = '*' then reject .universalNotFirst pos
    else if startsIdent (c :: rest) then reject .elementNotFirst pos
    else if c = '.' ∨ c = '#' ∨ c = '&' ∨ c = '[' then
      let piece :=
        if c = '.' then (ident .className (pos + 1) rest).map (Scan.map Simple.className)
        else if c = '#' then (name .id (pos + 1) rest).map (Scan.map Simple.id)
        else if c = '&' then .ok ⟨.nesting, 0⟩
        else attributeSelector (pos + 1) rest
      match piece with
      | .error e => .error e
      | .ok ⟨simple, n⟩ => (simples (pos + (1 + n)) (rest.drop n)).map (Scan.behind (1 + n) (simple :: ·))
    else .ok ⟨[], 0⟩
termination_by (text.length, 0)
decreasing_by
  all_goals apply Prod.Lex.left
  all_goals simp only [List.length_drop, List.length_take, List.length_cons]; omega

/-- A compound of at least one simple selector. -/
def compound (pos : Nat) (text : List Char) : Except Rejection (Scan Compound) :=
  match typeSelector pos text with
  | .error e => .error e
  | .ok ⟨start, n⟩ =>
    match simples (pos + n) (text.drop n) with
    | .error e => .error e
    | .ok ⟨more, m⟩ =>
      if start ++ more = [] then
        match text with
        | c :: _ => reject (if isZeroWidth c then .unexpected c else .noSelector) pos
        | [] => reject .noSelector pos
      else .ok ⟨start ++ more, n + m⟩
termination_by (text.length, 1)
decreasing_by
  rw [Prod.lex_def]
  simp only [List.length_drop]
  omega

/-- The simple selector that a negation holds. Blanks around it are left aside; only white space before it counts for
the place of a fault. -/
def negated (pos : Nat) (argument : List Char) : Except Rejection Simple :=
  let inner := Text.trim argument
  let start := pos + spaces argument
  if inner = [] then reject .emptyNegation pos
  else match compound start inner with
    | .error e => .error e
    | .ok ⟨simples, n⟩ =>
      match inner.drop n with
      | c :: _ => reject (if separates c then .notSingle else .unexpected c) (start + n)
      | [] => single pos simples
termination_by (argument.length, 2)
decreasing_by
  rw [Prod.lex_def]
  have := Text.length_trim_le argument
  simp only; omega
end

/-- What stands between two compounds. -/
inductive Joint where
  /-- The selector ends here. -/
  | none
  | combinator (combinator : Combinator)
  /-- A character that can neither end the selector nor go on with it. -/
  | unexpected (c : Char)

/-- What follows a compound, without the white space in front, which may itself be a combinator. -/
def joint (blank : Bool) : List Char → Joint × Nat
  | [] => (.none, 0)
  | ',' :: _ => (.none, 0)
  | '>' :: _ => (.combinator .child, 1)
  | '+' :: _ => (.combinator .nextSibling, 1)
  | '~' :: _ => (.combinator .laterSibling, 1)
  | '|' :: '|' :: _ => (.combinator .column, 2)
  | c :: _ => (if blank then .combinator .descendant else .unexpected c, 0)

/-- Only white space is a combinator of no characters. -/
theorem joint_progress {blank : Bool} {text : List Char} {sign : Combinator} {m : Nat}
    (h : joint blank text = (.combinator sign, m)) : 0 < m ∨ blank = true := by
  unfold joint at h
  split at h <;> cases blank <;> simp at h <;> simp [← h.2]

/-- The compounds that follow the first one, and the white space behind the last. -/
def links (pos : Nat) (text : List Char) : Except Rejection (Scan (List (Combinator × Compound))) :=
  let n := spaces text
  match _h : joint (n != 0) (text.drop n) with
  | (.none, _) => .ok ⟨[], n⟩
  | (.unexpected c, _) => reject (.unexpected c) (pos + n)
  | (.combinator sign, m) =>
    let n := n + m
    let n := n + spaces (text.drop n)
    match _tail : text.drop n with
    | [] => reject .danglingCombinator (pos + n)
    | c :: _ =>
      if c = ',' then reject .danglingCombinator (pos + n)
      else match compound (pos + n) (text.drop n) with
        | .error e => .error e
        | .ok ⟨simples, m⟩ => (links (pos + (n + m)) (text.drop (n + m))).map (Scan.behind (n + m) ((sign, simples) :: ·))
termination_by text.length
decreasing_by
  have progress := joint_progress _h
  have behind := congrArg List.length _tail
  simp only [List.length_drop, List.length_cons, bne_iff_ne, ne_eq] at progress behind ⊢
  omega

/-- A complex selector, with the white space behind it. -/
def complex (pos : Nat) (text : List Char) : Except Rejection (Scan Complex) :=
  match compound pos text with
  | .error e => .error e
  | .ok ⟨first, n⟩ => (links (pos + n) (text.drop n)).map (Scan.behind n (⟨first, ·⟩))

/-- The selectors of a list. A complex selector ends only at the end of the text or at a comma. -/
def selectors (pos : Nat) (text : List Char) : Except Rejection (List Complex) :=
  let n := spaces text
  match complex (pos + n) (text.drop n) with
  | .error e => .error e
  | .ok ⟨c, m⟩ =>
    match _h : text.drop (n + m) with
    | [] => .ok [c]
    | _ :: rest => (selectors (pos + (n + m + 1)) rest).map (c :: ·)
termination_by text.length
decreasing_by
  have := congrArg List.length _h
  simp only [List.length_drop, List.length_cons] at this
  omega

/-- The selector list that a text is. -/
def parse (text : String) : Except Rejection (List Complex) := selectors 0 text.toList

end StyleAudit.Selector
