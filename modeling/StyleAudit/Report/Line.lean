/-!
Lines of a report: text, parts of which may be set off by a style. Styles are shown by control sequences in front of a
text and behind it, or not at all; the text is the same either way.
-/
namespace StyleAudit.Report

/-- What sets a part of a line off. -/
inductive Style where
  | heading
  | notice
  | warning
  | error
  | names
  deriving DecidableEq, Repr

def Style.parameters : Style → String
  | .heading => "36;1"
  | .notice => "34"
  | .warning => "33"
  | .error => "31;1"
  | .names => "35"

def controlSequence (parameters : String) : String := "\x1b[" ++ parameters ++ "m"

structure Piece where
  style : Option Style
  text : String
  deriving DecidableEq, Repr

def Piece.render (color : Bool) (p : Piece) : String :=
  match p.style with
  | some style =>
    if color then controlSequence style.parameters ++ p.text ++ controlSequence "0" else p.text
  | none => p.text

inductive Line where
  | plain (text : String)
  /-- A text that is set off, between two that are not. -/
  | setOff (before : String) (style : Style) (text after : String)
  /-- How many entries there are under a label. A number other than zero is set off. -/
  | count (label : String) (style : Style) (n : Nat)
  /-- An entry of a listing. The head of the listing stands in front of its first entry, and blanks stand in front of
  the others. -/
  | entry (head : String) (isFirst : Bool) (text : String)
  | hit (token : String) (line : Nat)
  deriving DecidableEq, Repr

def blanks (n : Nat) : String := String.ofList (List.replicate n ' ')

namespace Line

def empty : Line := .plain ""

def pieces : Line → List Piece
  | .plain text => [⟨none, text⟩]
  | .setOff before style text after => [⟨none, before⟩, ⟨some style, text⟩, ⟨none, after⟩]
  | .count label style n =>
    [⟨none, "   - " ++ label ++ ": "⟩, ⟨if n = 0 then none else some style, toString n⟩]
  | .entry head isFirst text => [⟨none, if isFirst then head else blanks head.length⟩, ⟨none, text⟩]
  | .hit token line => [⟨none, "          - " ++ token ++ " @ line " ++ toString line⟩]

def render (color : Bool) (l : Line) : String := String.join (l.pieces.map (Piece.render color))

end Line

def render (color : Bool) (lines : List Line) : String :=
  String.join (lines.map fun l => l.render color ++ "\n")

/-- A listing of texts under one head. -/
def listing (head : String) : List String → List Line
  | [] => []
  | text :: rest => .entry head true text :: rest.map (.entry head false)

/-- A paragraph in a section, between empty lines. -/
def paragraph (text : String) : List Line := [.empty, .plain ("      " ++ text), .empty]

end StyleAudit.Report
