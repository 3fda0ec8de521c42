import StyleAudit.Css.Nesting
/-!
Component values: what a property value or the head of a rule consists of, without the places it was read from.
-/
namespace StyleAudit.Css

/-- A token, or a block with the values in it. -/
inductive ComponentValue where
  | token (kind : TokenKind)
  | block (opening : Opening) (contents : List ComponentValue)
  deriving Repr

namespace ComponentValue

mutual
def ofNode : Node → ComponentValue
  | .leaf t => .token t.kind
  | .block opening _ contents _ => .block opening (ofNodes contents)

def ofNodes : List Node → List ComponentValue
  | [] => []
  | n :: rest => ofNode n :: ofNodes rest
end

/-- The text of a token within a value: escapes resolved, strings in double quotes, numbers in their shortest
digits. Tokens that no value holds in earnest keep the name they have in issues. -/
def tokenText : TokenKind → String
  | .ident name => name
  | .atKeyword name => "@" ++ name
  | .hash name _ => "#" ++ name
  | .string value => "\"" ++ value ++ "\""
  | .url address => "url(" ++ address ++ ")"
  | .delim c => c.toString
  | .number n => n.value.text
  | .percentage n => n.value.text ++ "%"
  | .dimension n unit => n.value.text ++ unit
  | .whitespace => " "
  | .colon => ":"
  | .semicolon => ";"
  | .comma => ","
  | other => other.display

mutual
/-- The text of a value; every block in it is closed. -/
def text : ComponentValue → String
  | .token kind => tokenText kind
  | .block opening contents => opening.text ++ listText contents ++ opening.closes.closing.toString

def listText : List ComponentValue → String
  | [] => ""
  | v :: rest => v.text ++ listText rest
end

def isWhitespace : ComponentValue → Bool
  | .token .whitespace => true
  | _ => false

def isComma : ComponentValue → Bool
  | .token .comma => true
  | _ => false

def string? : ComponentValue → Option String
  | .token (.string s) => some s
  | _ => none

/-- The contents of a string, of a url, or of the first string in a `url()` function. -/
def address? : ComponentValue → Option String
  | .token (.string s) => some s
  | .token (.url s) => some s
  | .block (.function name) contents => if name.toLower = "url" then contents.findSome? string? else none
  | _ => none

/-- Values apart from white space, one space between them. -/
def spaced (values : List ComponentValue) : String :=
  " ".intercalate ((values.filter (!·.isWhitespace)).map text)

/-- The items of a list separated by commas. -/
def splitAtCommas : List ComponentValue → List (List ComponentValue)
  | [] => [[]]
  | v :: rest =>
    if v.isComma then [] :: splitAtCommas rest
    else match splitAtCommas rest with
      | [] => [[v]]
      | item :: more => (v :: item) :: more

/-- One item of a list: a single string or url stands for its contents, anything else for its text. An item of white
space is none. -/
def item? (values : List ComponentValue) : Option String :=
  match values.filter (!·.isWhitespace) with
  | [] => none
  | [v] => some (v.address?.getD v.text)
  | many => some (spaced many)

def items (values : List ComponentValue) : List String :=
  (splitAtCommas values).filterMap item?

end ComponentValue
end StyleAudit.Css
