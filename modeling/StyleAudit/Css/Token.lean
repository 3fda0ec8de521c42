import StyleAudit.Number.Decimal
import StyleAudit.Css.Source
/-!
Tokens of a style sheet: what each one is, and the text it was read from.
-/
namespace StyleAudit.Css

/-- The three pairs of brackets. -/
inductive Bracket where
  | paren
  | square
  | curly
  deriving DecidableEq, Repr

def Bracket.opening : Bracket → Char
  | .paren => '('
  | .square => '['
  | .curly => '\x7b'

def Bracket.closing : Bracket → Char
  | .paren => ')'
  | .square => ']'
  | .curly => '\x7d'

/-- What opens a block: a bracket, or the name of a function with its bracket. -/
inductive Opening where
  | bracket (bracket : Bracket)
  | function (name : String)
  deriving DecidableEq, Repr

namespace Opening

def closes : Opening → Bracket
  | .bracket b => b
  | .function _ => .paren

/-- The text that opens the block, escapes resolved. -/
def text : Opening → String
  | .bracket b => b.opening.toString
  | .function name => name ++ "("

end Opening

/-- Whether the name behind a `#` could stand as an identifier. -/
inductive HashKind where
  | id
  | unrestricted
  deriving DecidableEq, Repr

/-- Whether a number is written without a point and an exponent. -/
inductive NumericKind where
  | integer
  | number
  deriving DecidableEq, Repr

/-- A number as a token holds it. -/
structure Numeric where
  value : Binary64
  kind : NumericKind
  deriving DecidableEq, Repr

/-- What a token is. Names and strings are held with their escapes resolved; a function's bracket is part of it. -/
inductive TokenKind where
  | ident (name : String)
  | function (name : String)
  | atKeyword (name : String)
  | hash (name : String) (kind : HashKind)
  | string (value : String)
  | badString
  | url (value : String)
  | badUrl
  | delim (char : Char)
  | number (value : Numeric)
  | percentage (value : Numeric)
  | dimension (value : Numeric) (unit : String)
  | whitespace
  | commentOpen
  | commentClose
  | colon
  | semicolon
  | comma
  | opening (bracket : Bracket)
  | closing (bracket : Bracket)
  | endOfSource
  deriving DecidableEq, Repr

namespace TokenKind

def opens? : TokenKind → Option Opening
  | .opening b => some (.bracket b)
  | .function name => some (.function name)
  | _ => none

def opensBlock (k : TokenKind) : Bool := k.opens?.isSome

def closesBlock : TokenKind → Bool
  | .closing _ => true
  | _ => false

def isWhitespace (k : TokenKind) : Bool := k == .whitespace

/-- How an issue names a token. -/
def display : TokenKind → String
  | .ident name => "<ident:" ++ name ++ ">"
  | .function name => "<function:" ++ name ++ "(>"
  | .atKeyword name => "<at-keyword:@" ++ name ++ ">"
  | .hash name kind => "<hash:#" ++ name ++ (match kind with | .id => " (id)>" | .unrestricted => " (unrestricted)>")
  | .string value => "<string:\"" ++ value ++ "\">"
  | .badString => "<bad-string>"
  | .url value => "<url:" ++ value ++ ">"
  | .badUrl => "<bad-url>"
  | .delim c => "<delim:" ++ c.toString ++ ">"
  | .number n => "<number:" ++ n.value.text ++ ">"
  | .percentage n => "<percentage:" ++ n.value.text ++ "%>"
  | .dimension n unit => "<dimension:" ++ n.value.text ++ unit ++ ">"
  | .whitespace => "<whitespace>"
  | .commentOpen => "<CDO>"
  | .commentClose => "<CDC>"
  | .colon => "<colon>"
  | .semicolon => "<semicolon>"
  | .comma => "<comma>"
  | .opening b => "<" ++ b.opening.toString ++ ">"
  | .closing b => "<" ++ b.closing.toString ++ ">"
  | .endOfSource => "<EOF>"

end TokenKind

/-- A token, the place it starts at and the characters it was read from. -/
structure Token where
  kind : TokenKind
  place : Place
  lexeme : List Char
  deriving DecidableEq, Repr

namespace Token

def line (t : Token) : Nat := t.place.line

def start (t : Token) : Nat := t.place.offset

def stop (t : Token) : Nat := t.place.offset + t.lexeme.length

end Token
end StyleAudit.Css
