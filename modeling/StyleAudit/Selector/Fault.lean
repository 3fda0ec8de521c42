import StyleAudit.Text.Escape
/-!
Why a text is no selector, and where in it that was found.
-/
namespace StyleAudit.Selector

/-- The kinds of names that a selector is made of. -/
inductive NameRole where
  | element
  | className
  | id
  | attributeName
  | attributeValue
  | pseudo
  deriving DecidableEq, Repr

def NameRole.text : NameRole → String
  | .element => "element name"
  | .className => "class name"
  | .id => "id"
  | .attributeName => "attribute name"
  | .attributeValue => "attribute value"
  | .pseudo => "pseudo-class name"

/-- Characters that cannot be seen and are no part of a name. -/
def isZeroWidth (c : Char) : Bool := ('\u200b' ≤ c && c ≤ '\u200d') || c == '\ufeff'

/-- What is wrong with a selector. -/
inductive Fault where
  | noName (role : NameRole)
  | noSelector
  | unexpected (c : Char)
  | danglingCombinator
  | universalNotFirst
  | elementNotFirst
  | malformedAttribute
  | unclosedAttribute
  | unclosedString
  | unclosedArgument
  | twoColons (pseudo : String)
  | oneColon (pseudo : String)
  | unknownPseudoElement (name : String)
  | unknownPseudoClass (name : String)
  | unknownFunction (name : String)
  | malformedLanguage
  | malformedPosition (argument : String)
  | positionZero
  | emptyNegation
  | notSingle
  | nestedNegation
  | negatedPseudoElement
  deriving DecidableEq, Repr

def Fault.message : Fault → String
  | .noName role => "expected " ++ role.text
  | .noSelector => "expected a selector"
  | .unexpected c =>
    if isZeroWidth c then "invalid character U+" ++ String.ofList (Text.upperHex 4 c.toNat)
    else "unexpected '" ++ c.toString ++ "'"
  | .danglingCombinator => "combinator is not followed by a selector"
  | .universalNotFirst => "universal selector must start a compound selector"
  | .elementNotFirst => "type selector must start a compound selector"
  | .malformedAttribute => "malformed attribute selector"
  | .unclosedAttribute => "attribute selector is not closed"
  | .unclosedString => "string is not closed"
  | .unclosedArgument => "argument is not closed"
  | .twoColons pseudo => "pseudo-class ':" ++ pseudo ++ "' written with two colons"
  | .oneColon pseudo => "pseudo-element '::" ++ pseudo ++ "' written with a single colon"
  | .unknownPseudoElement name => "unknown pseudo-element '::" ++ name ++ "'"
  | .unknownPseudoClass name => "unknown pseudo-class ':" ++ name ++ "'"
  | .unknownFunction name => "unknown pseudo-class ':" ++ name ++ "()'"
  | .malformedLanguage => "malformed language range"
  | .malformedPosition argument => "position '" ++ argument ++ "' is not of the form An+B, even or odd"
  | .positionZero => "position 0 never matches (positions start at 1)"
  | .emptyNegation => "negation has no argument"
  | .notSingle => "negation takes a single simple selector"
  | .nestedNegation => "negation cannot be nested"
  | .negatedPseudoElement => "negation cannot take a pseudo-element"

/-- A fault, and how many characters of the text stand before it. -/
structure Rejection where
  fault : Fault
  position : Nat
  deriving DecidableEq, Repr

namespace Rejection

def message (r : Rejection) : String := r.fault.message

def text (r : Rejection) : String := r.message ++ " at position " ++ toString r.position

end Rejection
end StyleAudit.Selector
