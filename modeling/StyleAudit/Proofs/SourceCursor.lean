import StyleAudit.Proofs.LongestNumerals
/-!
Reading tokens by positions. A cursor goes over the characters of a source and counts the lines it passes, and what is read is
up to routines that look ahead of it, move it on, and put back a character they do not want. They watch over themselves: a loop
that goes around without moving forward, a character put back that is not there, and a line counted off too often are faults.
-/
namespace StyleAudit.Css

/-- A token as the cursor leaves it: what it is, the offsets between which it was read, and the line it starts on. -/
structure SpannedToken where
  kind : TokenKind
  start : Nat
  stop : Nat
  line : Nat
  deriving DecidableEq, Repr

/-- What is left of a token without the text that it was read from. -/
def Token.spanned (t : Token) : SpannedToken := ⟨t.kind, t.start, t.stop, t.line⟩

namespace SourceCursor

open Text (isHexDigit hexNumber charOfNumber replacement)

inductive Halt where
  /-- A loop went around and the cursor did not move forward in the source. -/
  | stuck
  | noCharacter (index : Nat)
  /-- There is no line in front of the one that is left. -/
  | noLine
  deriving DecidableEq, Repr

abbrev Routine (α : Type) := StateT Place (Except Halt) α

/-- How a round of a loop ends. -/
inductive Turn (α β : Type) where
  | again (a : α)
  | done (b : β)

/-- Whether a character behind another one is escaped by it. -/
def isEscape (first second : Option Char) : Bool := first == some '\\' && second != some '\n'

section
variable (source : List Char)

/-! Single characters. -/

/-- The character that many characters behind the cursor. -/
def peekAt (offset : Nat) : Routine (Option Char) := fun place => .ok (source[place.offset + offset]?, place)

def peek : Routine (Option Char) := peekAt source 0

/-- The character under the cursor, which moves on. -/
def next : Routine (Option Char) := fun place =>
  match source[place.offset]? with
  | none => .ok (none, place)
  | some c => .ok (some c, ⟨place.offset + 1, if c = '\n' then place.line + 1 else place.line⟩)

def skip : Nat → Routine Unit
  | 0 => return ()
  | count + 1 => do
    let _ ← next source
    skip count

/-- The last character is put back. -/
def putBack : Routine Unit := fun place =>
  match place.offset with
  | 0 => .ok ((), place)
  | offset + 1 =>
    match source[offset]? with
    | none => .error (.noCharacter offset)
    | some c =>
      if c = '\n' then
        match place.line with
        | 0 => .error .noLine
        | line + 1 => .ok ((), ⟨offset, line⟩)
      else .ok ((), ⟨offset, place.line⟩)

/-- A loop that goes around until it is done. Each round must take the cursor forward in the source. -/
def loop {α β : Type} (body : α → Routine (Turn α β)) (a : α) (place : Place) : Except Halt (β × Place) :=
  match body a place with
  | .error halt => .error halt
  | .ok (.done b, behind) => .ok (b, behind)
  | .ok (.again a, behind) =>
    if _ : place.offset < behind.offset ∧ behind.offset ≤ source.length then loop body a behind else .error .stuck
termination_by source.length - place.offset

/-! Comments and white space. -/

/-- A comment behind its opening. -/
def takeComment : Routine Unit :=
  loop source (fun _ => do
    match ← next source with
    | none => return .done ()
    | some c =>
      if c = '*' ∧ (← peek source) = some '/' then
        let _ ← next source
        return .done ()
      else return .again ()) ()

def takeComments : Routine Unit :=
  loop source (fun _ => do
    if (← peek source) = some '/' ∧ (← peekAt source 1) = some '*' then
      skip source 2
      takeComment source
      return .again ()
    else return .done ()) ()

def takeSpaces : Routine Unit :=
  loop source (fun _ => do
    if (← peek source).any isSpace then
      let _ ← next source
      return .again ()
    else return .done ()) ()

/-- How far white space reaches behind the cursor, which stays where it is: up to `offset` there is nothing else. -/
def spacesAhead (offset : Nat) (place : Place) : Except Halt (Nat × Place) :=
  if _ : place.offset + offset < source.length ∧ (source[place.offset + offset]?).any isSpace then
    spacesAhead (offset + 1) place
  else .ok (offset, place)
termination_by source.length - (place.offset + offset)

/-! Escapes and names. -/

/-- A text with the character under the cursor behind it. -/
def pushNext (text : List Char) : Routine (List Char) := do
  match ← next source with
  | none => return text
  | some c => return text ++ [c]

/-- Up to that many hexadecimal digits more. -/
def pushHexDigits : Nat → List Char → Routine (List Char)
  | 0, digits => return digits
  | count + 1, digits => do
    if (← peek source).any isHexDigit then pushHexDigits count (← pushNext source digits)
    else return digits

/-- An escaped character, behind its backslash. -/
def takeEscape : Routine Char := do
  match ← next source with
  | none => return replacement
  | some c =>
    if isHexDigit c then
      let digits ← pushHexDigits source 5 [c]
      if (← peek source).any isSpace then
        let _ ← next source
        return charOfNumber (hexNumber digits)
      else return charOfNumber (hexNumber digits)
    else return c

def takeName : Routine (List Char) :=
  loop source (fun value => do
    match ← next source with
    | none => return .done value
    | some c =>
      if isNameChar c then return .again (value ++ [c])
      else if isEscape (some c) (← peek source) then return .again (value ++ [← takeEscape source])
      else
        putBack source
        return .done value) []

/-- Whether a name starts at the cursor. -/
def startsName : Routine Bool := do
  match ← peek source with
  | none => return false
  | some c =>
    if c = '-' then
      let second ← peekAt source 1
      return second.any isNameStart || second == some '-' || isEscape second (← peekAt source 2)
    else return isNameStart c || isEscape (some c) (← peekAt source 1)

/-! Numbers. -/

/-- Whether a number starts at the cursor. -/
def startsNumber : Routine Bool := do
  match ← peek source with
  | none => return false
  | some c =>
    if c = '+' ∨ c = '-' then
      match ← peekAt source 1 with
      | none => return false
      | some d =>
        if d = '.' then return (← peekAt source 2).any Char.isDigit
        else return d.isDigit
    else if c = '.' then return (← peekAt source 1).any Char.isDigit
    else return c.isDigit

def pushDigits (text : List Char) : Routine (List Char) :=
  loop source (fun text => do
    if (← peek source).any Char.isDigit then return .again (← pushNext source text)
    else return .done text) text

def isSign (c : Option Char) : Bool := c == some '+' || c == some '-'

def pushSign (text : List Char) : Routine (List Char) := do
  if isSign (← peek source) then pushNext source text else return text

/-- A point with digits behind it makes a number of what was an integer. -/
def pushFraction (text : List Char) : Routine (List Char × NumericKind) := do
  if (← peek source) = some '.' ∧ (← peekAt source 1).any Char.isDigit then
    return (← pushDigits source (← pushNext source text), .number)
  else return (text, .integer)

/-- So does a letter with a power behind it. -/
def pushPower (text : List Char) (kind : NumericKind) : Routine (List Char × NumericKind) := do
  if (← peek source).any Numeral.isPowerLetter then
    let signed := isSign (← peekAt source 1)
    if (← peekAt source (if signed then 2 else 1)).any Char.isDigit then
      let text ← pushNext source text
      let text ← (if signed then pushNext source text else pure text)
      return (← pushDigits source text, .number)
    else return (text, kind)
  else return (text, kind)

/-- A number, from the text that it is written in as a whole; zero if that were no number. -/
def takeNumber : Routine Numeric := do
  let text ← pushDigits source (← pushSign source [])
  let (text, kind) ← pushFraction source text
  let (text, kind) ← pushPower source text kind
  return ⟨((Numeral.decimalOf? text).map Decimal.toBinary64).getD (Binary64.zero false), kind⟩

/-- A number with the unit or percent sign behind it. -/
def takeNumeric : Routine TokenKind := do
  let value ← takeNumber source
  if ← startsName source then
    return .dimension value (String.ofList (← takeName source))
  else if (← peek source) = some '%' then
    let _ ← next source
    return .percentage value
  else return .number value

/-! Strings and addresses. -/

/-- A string behind its first quote. The line end that makes it a bad one is put back. -/
def takeString (quote : Char) : Routine TokenKind :=
  loop source (fun value => do
    match ← next source with
    | none => return .done (.string (String.ofList value))
    | some c =>
      if c = quote then return .done (.string (String.ofList value))
      else if c = '\n' then
        putBack source
        return .done .badString
      else if c = '\\' then
        match ← peek source with
        | none => return .again value
        | some d =>
          if d = '\n' then
            let _ ← next source
            return .again value
          else return .again (value ++ [← takeEscape source])
      else return .again (value ++ [c])) []

/-- What follows an address that could not be read. -/
def takeBadUrl : Routine Unit :=
  loop source (fun _ => do
    match ← next source with
    | none => return .done ()
    | some c =>
      if c = ')' then return .done ()
      else if isEscape (some c) (← peek source) then
        let _ ← takeEscape source
        return .again ()
      else return .again ()) ()

/-- An address without quotes, behind its parenthesis and white space. -/
def takeUrlBody : Routine TokenKind :=
  loop source (fun value => do
    match ← next source with
    | none => return .done (.url (String.ofList value))
    | some c =>
      if c = ')' then return .done (.url (String.ofList value))
      else if isSpace c then
        takeSpaces source
        match ← peek source with
        | none => return .done (.url (String.ofList value))
        | some d =>
          if d = ')' then
            let _ ← next source
            return .done (.url (String.ofList value))
          else
            takeBadUrl source
            return .done .badUrl
      else if c = '"' ∨ c = '\'' ∨ c = '(' then
        takeBadUrl source
        return .done .badUrl
      else if c = '\\' then
        if isEscape (some c) (← peek source) then return .again (value ++ [← takeEscape source])
        else
          takeBadUrl source
          return .done .badUrl
      else return .again (value ++ [c])) []

def takeUrl : Routine TokenKind := do
  takeSpaces source
  takeUrlBody source

/-- A name, or a function if a parenthesis follows; an address without quotes is a token of its own. -/
def takeIdentLike : Routine TokenKind := do
  let name ← takeName source
  if (← peek source) = some '(' then
    let _ ← next source
    if name.map Char.toLower = ['u', 'r', 'l'] then
      let ahead ← peekAt source (← spacesAhead source 0)
      if ahead = some '"' ∨ ahead = some '\'' then return .function (String.ofList name)
      else takeUrl source
    else return .function (String.ofList name)
  else return .ident (String.ofList name)

/-! Tokens. -/

/-- Behind a number sign. -/
def takeHash : Routine TokenKind := do
  let second ← peek source
  if second.any isNameChar || isEscape second (← peekAt source 1) then
    let kind := if ← startsName source then HashKind.id else .unrestricted
    return .hash (String.ofList (← takeName source)) kind
  else return .delim '#'

/-- Behind a plus sign or a point, with which a number may begin. -/
def takeSigned (c : Char) : Routine TokenKind := do
  putBack source
  if ← startsNumber source then takeNumeric source
  else
    let _ ← next source
    return .delim c

/-- Behind a dash, with which a number or a name may begin. -/
def takeDash : Routine TokenKind := do
  putBack source
  if ← startsNumber source then takeNumeric source
  else if (← peekAt source 1) = some '-' ∧ (← peekAt source 2) = some '>' then
    skip source 3
    return .commentClose
  else if ← startsName source then takeIdentLike source
  else
    let _ ← next source
    return .delim '-'

def takeAngle : Routine TokenKind := do
  if (← peek source) = some '!' ∧ (← peekAt source 1) = some '-' ∧ (← peekAt source 2) = some '-' then
    skip source 3
    return .commentOpen
  else return .delim '<'

/-- Behind an at sign. -/
def takeKeyword : Routine TokenKind := do
  if ← startsName source then return .atKeyword (String.ofList (← takeName source))
  else return .delim '@'

def takeBackslash : Routine TokenKind := do
  if isEscape (some '\\') (← peek source) then
    putBack source
    takeIdentLike source
  else return .delim '\\'

/-- The token under the cursor. -/
def takeToken : Routine TokenKind := do
  match ← next source with
  | none => return .endOfSource
  | some c =>
    if isSpace c then
      takeSpaces source
      return .whitespace
    else if c = '"' ∨ c = '\'' then takeString source c
    else if c = '#' then takeHash source
    else if c = '+' ∨ c = '.' then takeSigned source c
    else if c = '-' then takeDash source
    else if c = '<' then takeAngle source
    else if c = '@' then takeKeyword source
    else if c = '\\' then takeBackslash source
    else if c.isDigit then
      putBack source
      takeNumeric source
    else if isNameStart c then
      putBack source
      takeIdentLike source
    else return (punctuation? c).getD (.delim c)

/-- The next token, behind the comments in front of it. -/
def takeTokensRound (tokens : List SpannedToken) : Routine (Turn (List SpannedToken) (List SpannedToken)) := do
  takeComments source
  let start ← get
  let kind ← takeToken source
  let stop ← get
  let tokens := tokens ++ [⟨kind, start.offset, stop.offset, start.line⟩]
  if kind = .endOfSource then return .done tokens else return .again tokens

/-- All tokens, comments left out; the last stands for the end of the source. -/
def takeTokens : Routine (List SpannedToken) := loop source (takeTokensRound source) []

/-- The tokens of a normalized source. -/
def scan : Except Halt (List SpannedToken) := (takeTokens source {}).map Prod.fst

end
end SourceCursor
end StyleAudit.Css
