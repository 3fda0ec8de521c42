import StyleAudit.Audit.Sheet
import StyleAudit.Proofs.AppendedSources
import StyleAudit.Proofs.EncodedText
import StyleAudit.Proofs.ExtractedTexts
/-!
Line ends. A source whose lines end in line feeds may end them in another way that style sheets know: it is read as the same
tokens in the same places, so that only its size in bytes tells the two apart.
-/
namespace StyleAudit

open Css (Stylesheet normalize tokenize)

/-- The ways to end a line other than a line feed. -/
inductive LineEnd where
  | returnAndFeed
  | carriageReturn
  | formFeed
  deriving DecidableEq, Repr

namespace LineEnd

def chars : LineEnd → List Char
  | .returnAndFeed => ['\r', '\n']
  | .carriageReturn => ['\r']
  | .formFeed => ['\x0c']

/-- A text whose line feeds give way to the line end. -/
def inPlace (e : LineEnd) (text : List Char) : List Char := text.flatMap fun c => if c = '\n' then e.chars else [c]

def rewrite (e : LineEnd) (css : String) : String := String.ofList (e.inPlace css.toList)

theorem inPlace_cons (e : LineEnd) (c : Char) (text : List Char) :
    e.inPlace (c :: text) = (if c = '\n' then e.chars else [c]) ++ e.inPlace text := List.flatMap_cons

/-- Returns that stand for line feeds have no line feed behind them. -/
theorem not_mem_inPlace (text : List Char) : '\n' ∉ carriageReturn.inPlace text := by
  intro mem
  obtain ⟨c, -, here⟩ := List.mem_flatMap.mp mem
  split at here
  · exact absurd here (by decide)
  · next other => exact other (List.mem_singleton.mp here).symm

/-- Where no pair arises by accident, a line end is a line feed in normal form. -/
theorem normalize_chars (e : LineEnd) {text : List Char} (apart : e = .carriageReturn → text.head? ≠ some '\n') :
    normalize (e.chars ++ text) = '\n' :: normalize text := by
  cases e with
  | returnAndFeed => exact Css.normalize.eq_2 text
  | carriageReturn =>
      rw [chars, List.singleton_append, Css.normalize.eq_3]
      · rfl
      · rintro rest - rfl
        exact apart rfl rfl
  | formFeed => exact Css.normalize_cons (by decide) text

theorem normalize_inPlace (e : LineEnd) {text : List Char} (feeds : '\r' ∉ text) :
    normalize (e.inPlace text) = normalize text := by
  induction text with
  | nil => rfl
  | cons c text ih =>
      rw [List.mem_cons, not_or] at feeds
      rw [inPlace_cons, Css.normalize_cons (Ne.symm feeds.1), ← ih feeds.2]
      split
      · next feed =>
          have apart : e = .carriageReturn → (e.inPlace text).head? ≠ some '\n' := by
            rintro rfl first
            exact not_mem_inPlace text (List.mem_of_mem_head? first)
          rw [normalize_chars e apart, feed]
          rfl
      · exact Css.normalize_cons (Ne.symm feeds.1) _

end LineEnd

theorem normalize_normalize (text : List Char) : normalize (normalize text) = normalize text :=
  Css.normalize_eq_self fun _ mem => Css.normalChar_of_mem mem

/-- The other source is read as the first one: the tokens are the same with their places and lines, so are the rules and
the issues, and of what an audit tells about the sheet only the number of bytes is another. -/
structure ReadAlike (css other : String) : Prop where
  tokens : tokenize other = tokenize css
  sheet : Stylesheet.ofText other = Stylesheet.ofText css
  audit : ∀ v scanPath, SheetAudit.ofBytes v scanPath (Text.toUtf8 other) =
    (SheetAudit.ofBytes v scanPath (Text.toUtf8 css)).map fun a =>
      { a with sizes := { a.sizes with written := (Text.toUtf8 other).length } }

/-- Nothing behind the normal form looks at the source as it was written, but for its size. -/
theorem readAlike_of_normalize {css other : String} (same : normalize other.toList = normalize css.toList) :
    ReadAlike css other := by
  have tokens : tokenize other = tokenize css := congrArg Css.tokens same
  have sheet : Stylesheet.ofText other = Stylesheet.ofText css := congrArg Stylesheet.ofTokens tokens
  refine ⟨tokens, sheet, fun v scanPath => ?_⟩
  simp only [SheetAudit.ofBytes, Text.ofUtf8_toUtf8, String.ofList_toList, sheet]
  cases Note.findings v scanPath (Note.ofRules (Stylesheet.ofText css).rules) <;> rfl

/-- How lines end does not matter. A source without carriage returns is read alike when all its line feeds give way to
pairs of a return and a line feed, to returns or to form feeds; and a normal form is its own normal form. -/
theorem rewrite_readAlike (e : LineEnd) (css : String) (feeds : '\r' ∉ css.toList) :
    ReadAlike css (e.rewrite css) ∧ ∀ text, normalize (normalize text) = normalize text := by
  refine ⟨readAlike_of_normalize ?_, normalize_normalize⟩
  rw [LineEnd.rewrite, String.toList_ofList]
  exact e.normalize_inPlace feeds

/-- Two empty lines and a line end in a comment, each of them a return: the last rule is on the sixth line. -/
theorem rewrite_readAlike_returns : '\r' ∉ "a {}\n\n\n/*\n*/\nb {}".toList ∧
    LineEnd.carriageReturn.rewrite "a {}\n\n\n/*\n*/\nb {}" = "a {}\r\r\r/*\r*/\rb {}" ∧
    ReadAlike "a {}\n\n\n/*\n*/\nb {}" "a {}\r\r\r/*\r*/\rb {}" ∧
    (Stylesheet.ofText "a {}\r\r\r/*\r*/\rb {}").rules.map Css.Rule.line = [1, 6] := by
  have feeds : '\r' ∉ "a {}\n\n\n/*\n*/\nb {}".toList := by decide
  have written : LineEnd.carriageReturn.rewrite "a {}\n\n\n/*\n*/\nb {}" = "a {}\r\r\r/*\r*/\rb {}" := by
    decide +kernel
  refine ⟨feeds, written, ?_, by decide +kernel⟩
  rw [← written]
  exact (rewrite_readAlike .carriageReturn _ feeds).1

end StyleAudit
