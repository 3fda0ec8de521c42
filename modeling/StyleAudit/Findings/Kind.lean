/-!
Kinds of findings about the writing of selectors, and how grave each is.
-/
namespace StyleAudit

inductive Severity where
  /-- Valid, but useless or not standard. -/
  | notice
  /-- Invalid, and mended. -/
  | warning
  /-- Invalid, and not to be mended. -/
  | error
  deriving DecidableEq, Repr

def Severity.name : Severity → String
  | .notice => "notices"
  | .warning => "warnings"
  | .error => "errors"

/-- What a repair of a selector mends, in the order of reports. -/
inductive RepairKind where
  | vendorExtension
  | experimentalPseudoClass
  | experimentalPseudoElement
  | ordinality
  | pseudoElementConfusion
  | pseudoClassConfusion
  | emptyNegation
  | badPosition
  | badCharacters
  | quotedNegation
  deriving DecidableEq, Repr

namespace RepairKind

/-- Every kind, in the order of reports: those of a notice come first. -/
def all : List RepairKind :=
  [.vendorExtension, .experimentalPseudoClass, .experimentalPseudoElement, .ordinality, .pseudoElementConfusion,
    .pseudoClassConfusion, .emptyNegation, .badPosition, .badCharacters, .quotedNegation]

theorem mem_all (k : RepairKind) : k ∈ all := by cases k <;> decide

def severity : RepairKind → Severity
  | .vendorExtension | .experimentalPseudoClass | .experimentalPseudoElement | .ordinality => .notice
  | .pseudoElementConfusion | .pseudoClassConfusion | .emptyNegation | .badPosition | .badCharacters
  | .quotedNegation => .warning

def ofSeverity (s : Severity) : List RepairKind := all.filter (·.severity = s)

def name : RepairKind → String
  | .vendorExtension => "unrecognized-vendor-extension"
  | .experimentalPseudoClass => "experimental-pseudo-class"
  | .experimentalPseudoElement => "experimental-pseudo-element"
  | .ordinality => "ordinality"
  | .pseudoElementConfusion => "pseudo-element-confusion"
  | .pseudoClassConfusion => "pseudo-class-confusion"
  | .emptyNegation => "empty-not"
  | .badPosition => "bad-pseudo-class-position"
  | .badCharacters => "bad-characters"
  | .quotedNegation => "quote-all-the-things"

/-- Where repairs of a kind are filed. -/
def category (k : RepairKind) : String := k.severity.name ++ "/" ++ k.name

def description : RepairKind → String
  | .vendorExtension => "The vendor extensions activate new and experimental features in browsers."
  | .experimentalPseudoClass => "There are non-standard, experimental pseudo-classes used here."
  | .experimentalPseudoElement => "There are non-standard, experimental pseudo-elements used here."
  | .ordinality =>
    "A structural pseudo-class with a position argument of 0 will not match any elements (indexes start at 1)."
  | .pseudoElementConfusion => "Pseudo-class syntax used for a pseudo-element."
  | .pseudoClassConfusion => "Pseudo-element syntax used for a pseudo-class."
  | .emptyNegation =>
    "The :not() pseudo-class requires a comma-separated list of one or more selectors as its argument."
  | .badPosition => "The position argument must be of the form <An+B> | even | odd."
  | .badCharacters => "Selectors may not include extended white-space characters, e.g.: <200b>, <200c>, <200d>."
  | .quotedNegation =>
    "Selectors in the argument of a negation pseudo-class should not be quoted like string literals."

end RepairKind

/-- One change made to a selector: the selector before it, the part that was changed, and what took its place. -/
structure Replacement where
  before : String
  matched : String
  after : String
  deriving DecidableEq, Repr

/-- A selector that could not be mended: as it was written, as it was left, and why. -/
structure Failure where
  before : String
  after : String
  reason : String
  deriving DecidableEq, Repr

end StyleAudit
