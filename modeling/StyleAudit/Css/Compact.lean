import StyleAudit.Css.Reading
/-!
The compact form of a style sheet: no comments, no white space that can be left out, selectors joined by commas and
declarations by semicolons.
-/
namespace StyleAudit.Css

namespace Declaration

def compact (d : Declaration) : String :=
  d.name ++ ":" ++ d.text ++ if d.important then "!important" else ""

end Declaration

def compactDeclarations (ds : List Declaration) : String :=
  ";".intercalate (ds.map Declaration.compact)

/-- A block with the given text in it. -/
def compactBlock (contents : String) : String := "\x7b" ++ contents ++ "\x7d"

/-- An at-rule up to its block or semicolon. -/
def compactAtRule (name prelude : String) : String :=
  "@" ++ name ++ if prelude = "" then "" else " " ++ prelude

def StyleRule.compact (r : StyleRule) : String :=
  ",".intercalate r.selectors ++ compactBlock (compactDeclarations r.declarations)

namespace Rule

mutual
def compact : Rule → String
  | .style r => r.compact
  | .group _ name prelude rules => compactAtRule name prelude ++ compactBlock (compactList rules)
  | .keyframes _ keyword name frames =>
    compactAtRule keyword name ++ compactBlock (String.join (frames.map StyleRule.compact))
  | .charset _ encoding => "@charset \"" ++ encoding ++ "\";"
  | .imported _ url media => "@import url(\"" ++ url ++ "\")" ++ (if media = "" then "" else " " ++ media) ++ ";"
  | .descriptors _ name prelude ds => compactAtRule name prelude ++ compactBlock (compactDeclarations ds)
  | .statement _ name prelude => compactAtRule name prelude ++ ";"

def compactList : List Rule → String
  | [] => ""
  | r :: rest => r.compact ++ compactList rest
end

end Rule

def Stylesheet.compact (s : Stylesheet) : String := Rule.compactList s.rules

end StyleAudit.Css
