import StyleAudit.Text.Escape
import StyleAudit.Text.Scan
import StyleAudit.Css.Numeral
import StyleAudit.Css.Token
/-!
Reading tokens. A scanner tells what it has read and how many characters that took, so the text of a token is that
many characters of the source, and places are counted from these texts and nothing else. `SourceCursor` goes through a source by
positions and counts as it goes; it comes to the same tokens.
-/
namespace StyleAudit.Css

open Text (Scan isHexDigit hexNumber charOfNumber replacement)

/-- The white space of a normalized source. -/
def isSpace (c : Char) : Bool := c == '\n' || c == '\t' || c == ' '

/-- A letter, an underscore or a character past ASCII. -/
def isNameStart (c : Char) : Bool := c.isAlpha || c == '_' || 128 ≤ c.toNat

/-- A character of a name that needs no escape. -/
def isNameChar (c : Char) : Bool := isNameStart c || c.isDigit || c == '-'

/-- Whether a backslash in front of a text is an escape: anything may follow but a line end. -/
def escapable : List Char → Bool
  | [] => true
  | c :: _ => c != '\n'

def startsEscape : List Char → Bool
  | [] => false
  | c :: rest => c == '\\' && escapable rest

def startsIdent : List Char → Bool
  | [] => false
  | '-' :: rest => (match rest with | [] => false | c :: _ => isNameStart c || c == '-') || startsEscape rest
  | c :: rest => isNameStart c || startsEscape (c :: rest)

/-- How many white space characters a text begins with. -/
def spaces (text : List Char) : Nat := (text.takeWhile isSpace).length

/-- One white space character, if there is one, belongs to the escape before it. -/
def startsSpace : List Char → Bool
  | [] => false
  | c :: _ => isSpace c

/-- The character that an escape stands for, read behind its backslash: up to six hexadecimal digits, or any one
character. At the end of the source it is the replacement character. -/
def escaped : List Char → Scan Char
  | [] => ⟨replacement, 0⟩
  | c :: rest =>
    if isHexDigit c then
      let digits := c :: (rest.take 5).takeWhile isHexDigit
      let space := startsSpace (rest.drop (digits.length - 1))
      ⟨charOfNumber (hexNumber digits), digits.length + if space then 1 else 0⟩
    else ⟨c, 1⟩

/-- The name a text begins with, its escapes resolved; empty if it begins with none. -/
def name (text : List Char) : Scan (List Char) :=
  match text with
  | [] => ⟨[], 0⟩
  | c :: rest =>
    if isNameChar c then (name rest).behind 1 (c :: ·)
    else if startsEscape (c :: rest) then
      let e := escaped rest
      (name (rest.drop e.size)).behind (1 + e.size) (e.value :: ·)
    else ⟨[], 0⟩
termination_by text.length
decreasing_by all_goals simp only [List.length_drop, List.length_cons]; omega

/-- The string that ends at the given quote, read behind its first one. A line end inside it makes it a bad string
and is left unread; a line end behind a backslash is dropped. -/
def string (quote : Char) (text : List Char) : Scan (Option (List Char)) :=
  match text with
  | [] => ⟨some [], 0⟩
  | c :: rest =>
    if c = quote then ⟨some [], 1⟩
    else if c = '\n' then ⟨none, 0⟩
    else if c = '\\' then
      match rest with
      | [] => ⟨some [], 1⟩
      | d :: more =>
        if d = '\n' then (string quote more).behind 2 id
        else
          let e := escaped (d :: more)
          (string quote ((d :: more).drop e.size)).behind (1 + e.size) (·.map (e.value :: ·))
    else (string quote rest).behind 1 (·.map (c :: ·))
termination_by text.length
decreasing_by all_goals simp only [List.length_drop, List.length_cons]; omega

/-- What follows a url that could not be read: everything up to a parenthesis that no escape holds. -/
def badUrlRest (text : List Char) : Nat :=
  match text with
  | [] => 0
  | c :: rest =>
    if c = ')' then 1
    else if startsEscape (c :: rest) then 1 + (escaped rest).size + badUrlRest (rest.drop (escaped rest).size)
    else 1 + badUrlRest rest
termination_by text.length
decreasing_by all_goals simp only [List.length_drop, List.length_cons]; omega

/-- The characters of an unquoted url up to its parenthesis; white space may stand only before that. -/
def urlBody (text : List Char) : Scan (Option (List Char)) :=
  match text with
  | [] => ⟨some [], 0⟩
  | c :: rest =>
    if c = ')' then ⟨some [], 1⟩
    else if isSpace c then
      let n := 1 + spaces rest
      match rest.dropWhile isSpace with
      | [] => ⟨some [], n⟩
      | d :: more => if d = ')' then ⟨some [], n + 1⟩ else ⟨none, n + badUrlRest (d :: more)⟩
    else if c = '"' ∨ c = '\'' ∨ c = '(' then ⟨none, 1 + badUrlRest rest⟩
    else if c = '\\' then
      if escapable rest then
        let e := escaped rest
        (urlBody (rest.drop e.size)).behind (1 + e.size) (·.map (e.value :: ·))
      else ⟨none, 1 + badUrlRest rest⟩
    else (urlBody rest).behind 1 (·.map (c :: ·))
termination_by text.length
decreasing_by all_goals simp only [List.length_drop, List.length_cons]; omega

def numeric (n : Numeral) : Numeric :=
  ⟨n.decimal.toBinary64, if n.isInteger then .integer else .number⟩

/-- A number with the unit or percent sign behind it. -/
def numericToken (text : List Char) : Scan TokenKind :=
  let n := Numeral.ofPrefix text
  let size := n.text.length
  let rest := text.drop size
  if startsIdent rest then (name rest).behind size fun unit => .dimension (numeric n) (String.ofList unit)
  else match rest with
    | '%' :: _ => ⟨.percentage (numeric n), size + 1⟩
    | _ => ⟨.number (numeric n), size⟩

/-- What stands behind `url(`: a quoted address makes it a function like any other. -/
def urlToken (spelling text : List Char) : Scan TokenKind :=
  match text.dropWhile isSpace with
  | '"' :: _ | '\'' :: _ => ⟨.function (String.ofList spelling), 0⟩
  | body =>
    (urlBody body).behind (spaces text) fun
      | some address => .url (String.ofList address)
      | none => .badUrl

def identToken (text : List Char) : Scan TokenKind :=
  let n := name text
  match text.drop n.size with
  | '(' :: rest =>
    if n.value.map Char.toLower = ['u', 'r', 'l'] then (urlToken n.value rest).behind (n.size + 1) id
    else ⟨.function (String.ofList n.value), n.size + 1⟩
  | _ => ⟨.ident (String.ofList n.value), n.size⟩

/-- A string or, if a line ends inside it, a bad one. -/
def stringToken (quote : Char) (text : List Char) : Scan TokenKind :=
  (string quote text).behind 1 fun
    | some value => .string (String.ofList value)
    | none => .badString

def hashToken (text : List Char) : Scan TokenKind :=
  (name text).behind 1 fun spelling =>
    .hash (String.ofList spelling) (if startsIdent text then .id else .unrestricted)

/-- The token that is one punctuation character, whatever follows it. -/
def punctuation? : Char → Option TokenKind
  | '(' => some (.opening .paren)
  | ')' => some (.closing .paren)
  | '[' => some (.opening .square)
  | ']' => some (.closing .square)
  | '\x7b' => some (.opening .curly)
  | '\x7d' => some (.closing .curly)
  | ',' => some .comma
  | ':' => some .colon
  | ';' => some .semicolon
  | _ => none

/-- Whether a text begins a name behind a number sign: here a digit or a hyphen may be its first character. -/
def startsName : List Char → Bool
  | [] => false
  | c :: rest => isNameChar c || startsEscape (c :: rest)

/-- The token that a text of at least one character begins with. -/
def token (c : Char) (rest : List Char) : Scan TokenKind :=
  match punctuation? c with
  | some kind => ⟨kind, 1⟩
  | none =>
    if isSpace c then ⟨.whitespace, 1 + spaces rest⟩
    else if c = '"' ∨ c = '\'' then stringToken c rest
    else if Numeral.starts (c :: rest) then numericToken (c :: rest)
    else if c = '-' ∧ ['-', '>'] <+: rest then ⟨.commentClose, 3⟩
    else if c = '<' ∧ ['!', '-', '-'] <+: rest then ⟨.commentOpen, 4⟩
    else if c = '#' ∧ startsName rest then hashToken rest
    else if c = '@' ∧ startsIdent rest then
      (name rest).behind 1 fun spelling => .atKeyword (String.ofList spelling)
    else if startsIdent (c :: rest) then identToken (c :: rest)
    else ⟨.delim c, 1⟩

theorem name_size_pos {c : Char} {rest : List Char} (h : isNameChar c ∨ startsEscape (c :: rest)) :
    0 < (name (c :: rest)).size := by
  unfold name
  by_cases n : isNameChar c
  · rw [if_pos n, Scan.behind_size]; omega
  · rw [if_neg n, if_pos (h.resolve_left n)]
    simp only [Scan.behind_size]; omega

theorem starts_of_startsIdent {c : Char} {rest : List Char} (h : startsIdent (c :: rest)) :
    isNameChar c ∨ startsEscape (c :: rest) := by
  by_cases dash : c = '-'
  · subst dash; exact .inl rfl
  · unfold startsIdent at h
    split at h
    · contradiction
    · next e => injection e with e; exact absurd e dash
    · next e =>
      injection e with e₁ e₂
      subst e₁ e₂
      rcases Bool.or_eq_true _ _ |>.mp h with start | escape
      · exact .inl (by simp [isNameChar, start])
      · exact .inr escape

/-- Every token is read from at least one character. -/
theorem token_size_pos (c : Char) (rest : List Char) : 0 < (token c rest).size := by
  unfold token
  split
  · exact Nat.one_pos
  · split
    · simp only; omega
    · split
      · simp only [stringToken, Scan.behind_size]; omega
      · split
        · next h =>
          have := Numeral.length_text_ofPrefix_pos h
          unfold numericToken
          simp only
          split
          · simp only [Scan.behind_size]; omega
          · split <;> simp only <;> omega
        · split
          · simp
          · split
            · simp
            · split
              · simp only [hashToken, Scan.behind_size]; omega
              · split
                · simp only [Scan.behind_size]; omega
                · split
                  · next h =>
                    have := name_size_pos (starts_of_startsIdent h)
                    unfold identToken
                    simp only
                    split
                    · split <;> simp only [Scan.behind_size] <;> omega
                    · exact this
                  · exact Nat.one_pos

/-- How far a comment reaches behind its opening: to the first closing, or to the end. -/
def commentBody : List Char → Nat
  | [] => 0
  | '*' :: '/' :: _ => 2
  | _ :: rest => 1 + commentBody rest

/-- How many characters the comments take that a text begins with. -/
def comments (text : List Char) : Nat :=
  match text with
  | '/' :: '*' :: rest => 2 + commentBody rest + comments (rest.drop (commentBody rest))
  | _ => 0
termination_by text.length
decreasing_by simp only [List.length_drop, List.length_cons]; omega

/-- The tokens of a text that starts at the given place. Comments before a token are no part of it, and the last
token stands for the end of the source. -/
def tokensFrom (place : Place) (text : List Char) : List Token :=
  let skipped := comments text
  let start := place.after (text.take skipped)
  match _h : text.drop skipped with
  | [] => [⟨.endOfSource, start, []⟩]
  | c :: rest =>
    let t := token c rest
    let lexeme := (c :: rest).take t.size
    ⟨t.value, start, lexeme⟩ :: tokensFrom (start.after lexeme) ((c :: rest).drop t.size)
termination_by text.length
decreasing_by
  have whole := congrArg List.length _h
  have progress := token_size_pos c rest
  simp only [List.length_drop, List.length_cons] at whole ⊢
  omega

/-- The tokens of a normalized source. -/
def tokens (source : List Char) : List Token := tokensFrom {} source

def tokenize (css : String) : List Token := tokens (normalize css.toList)

end StyleAudit.Css
