/-!
Vocabularies: the names that selectors are held against.
-/
namespace StyleAudit

/-- Element names of Plain Old Simple HTML and class names of microformats, all in lower case. -/
structure Vocabulary where
  posh : List String
  microformats : List String
  microformats2 : List String
  deriving DecidableEq, Repr

namespace Vocabulary

/-- Whether an element is Plain Old Simple HTML, letter case left aside. -/
def isPosh (v : Vocabulary) (element : String) : Bool := v.posh.contains element.toLower

/-- Whether a name in lower case is a class name of the classic microformats. -/
def isMicroformat (v : Vocabulary) (name : String) : Bool := v.microformats.contains name

/-- Whether a name in lower case is a class name of microformats2. -/
def isMicroformat2 (v : Vocabulary) (name : String) : Bool := v.microformats2.contains name

end Vocabulary
end StyleAudit
