import StyleAudit.Selector.Chain
import StyleAudit.Vocabulary.Basic
/-!
Uses of vocabularies: what the names in a selector say about the document they are meant for.
-/
namespace StyleAudit

open Selector (Part Chain)

/-- A name that is worth a remark. Class names are in lower case, but for the token of a short word in front of a
hyphen, which is as it was written. -/
inductive Use where
  /-- An element that is not Plain Old Simple HTML. -/
  | element (name : String)
  | microformat (name : String)
  | wellKnown (name : String)
  /-- A class name in the form of microformats2 that is not one of them. -/
  | wellKnownFormat (name : String)
  /-- A class name that begins with one letter and a hyphen. -/
  | oneLetter (letter token : String)
  /-- A class name that begins with two letters and a hyphen. -/
  | twoLetters (letters token : String)
  deriving DecidableEq, Repr

/-- What class names of microformats2 begin with. -/
def microformat2Starts : List String := ["h", "e", "u", "dt", "p"]

/-- A word of one or two small letters in front of a hyphen. -/
def shortStart? (name : String) : Option String :=
  let start := name.toList.takeWhile (· ≠ '-')
  if '-' ∈ name.toList ∧ (start.length = 1 ∨ start.length = 2) ∧ start.all Char.isLower then
    some (String.ofList start)
  else none

/-- The use that a class name is: of the classic microformats if it is one of them, or else by the short word that it
begins with. -/
def classUse? (v : Vocabulary) (token : String) : Option Use :=
  let name := token.toLower
  if v.isMicroformat name then some (.microformat name)
  else match shortStart? name with
    | none => none
    | some start =>
      if start ∈ microformat2Starts then
        some (if v.isMicroformat2 name then .wellKnown name else .wellKnownFormat name)
      else some (if start.length = 2 then .twoLetters start token else .oneLetter start token)

/-- The use that a part of a selector is. Only element names and class names can be one; the argument of a pseudo-class
counts like any other part. -/
def partUse? (v : Vocabulary) : Part → Option Use
  | .element name => if v.isPosh name then none else some (.element name)
  | .className name => classUse? v name
  | .pseudoFunction _ argument => partUse? v argument
  | .id _ | .hasAttribute _ | .pseudoClass _ | .pseudoElement _ | .universal | .position _ | .language _ => none

/-- The uses in a chain, in source order. -/
def chainUses (v : Vocabulary) (c : Chain) : List Use := c.parts.filterMap (partUse? v)

end StyleAudit
