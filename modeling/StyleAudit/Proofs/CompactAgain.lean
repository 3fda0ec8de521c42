import StyleAudit.Proofs.CompactReading
import StyleAudit.Proofs.MovedTokens
/-!
The compact form of the compact form. It has no lines in it, so that it is the same text again wherever reading it gives
the rules it was written from; that is so for rules made of plain words, and never for an encoding with a quote and a word
in it.
-/
namespace StyleAudit.Css

open Selector (StopsAt isIdentifier)
open Text (Scan)

/-! Lines are not written. -/

theorem StyleRule.compact_moved (g : Nat → Nat) (r : StyleRule) : (r.moved g).compact = r.compact := by
  have texts : (r.declarations.map (Declaration.moved g)).map Declaration.compact = r.declarations.map Declaration.compact := by
    rw [List.map_map]
    rfl
  rw [compact, compact, moved, compactDeclarations, texts, compactDeclarations]

mutual
theorem Rule.compact_moved (g : Nat → Nat) : ∀ r : Rule, (r.moved g).compact = r.compact
  | .style r => by rw [moved, compact, compact, StyleRule.compact_moved]
  | .group line name prelude rules => by rw [moved, compact, compact, compactList_moved g rules]
  | .keyframes line keyword name frames => by
      have texts : (frames.map (StyleRule.moved g)).map StyleRule.compact = frames.map StyleRule.compact := by
        rw [List.map_map]
        exact List.map_congr_left fun frame _ => StyleRule.compact_moved g frame
      rw [moved, compact, compact, texts]
  | .charset .. => rfl
  | .imported .. => rfl
  | .descriptors line name prelude ds => by
      have texts : (ds.map (Declaration.moved g)).map Declaration.compact = ds.map Declaration.compact := by
        rw [List.map_map]
        rfl
      rw [moved, compact, compact, compactDeclarations, texts, compactDeclarations]
  | .statement .. => rfl

/-- The compact text of rules does not depend on their lines. -/
theorem Rule.compactList_moved (g : Nat → Nat) : ∀ rules : List Rule, compactList (listMoved g rules) = compactList rules
  | [] => rfl
  | r :: rest => by rw [listMoved, compactList, compactList, compact_moved g r, compactList_moved g rest]
end

mutual
theorem Rule.onLine_eq (line : Nat) : ∀ r : Rule, r.onLine line = r.moved fun _ => line
  | .group _ name prelude rules => by rw [onLine, moved, allOnLine_eq line rules]
  | .style _ => rfl
  | .keyframes .. => rfl
  | .charset .. => rfl
  | .imported .. => rfl
  | .descriptors .. => rfl
  | .statement .. => rfl

theorem Rule.allOnLine_eq (line : Nat) : ∀ rules : List Rule, allOnLine line rules = listMoved (fun _ => line) rules
  | [] => rfl
  | r :: rest => by rw [allOnLine, listMoved, onLine_eq line r, allOnLine_eq line rest]
end

/-! Reading again. -/

/-- What is written in one form and can stand at the end of a source is read from nodes of that form. -/
theorem ofText_form {text : String} {stops : List Char → Prop} {form : List Node → Prop}
    (h : Written text.toList stops form) (hs : stops []) :
    ∃ stop nodes, form nodes ∧ Stylesheet.ofText text =
      ⟨(readRules false ⟨false, stop⟩ .nothing nodes).items, (readRules false ⟨false, stop⟩ .nothing nodes).issues⟩ := by
  obtain ⟨pieces, spelled, apart, nests⟩ := h
  have whole := apart [] hs
  obtain ⟨ts, stop, read, carries, kinds⟩ := tokensFrom_apart whole (show Place.line {} = 1 from rfl)
  obtain ⟨nodes, nested, known⟩ := nests ts carries
  have source : tokenize text = ts ++ [⟨.endOfSource, stop, []⟩] := by
    rw [tokenize, ← spelled, normalize_inline whole.inline, tokens, read]
  have front : (ts ++ [(⟨.endOfSource, stop, []⟩ : Token)]).takeWhile (·.kind ≠ .endOfSource) = ts := by
    rw [List.takeWhile_append_of_pos fun t ht => by simpa using kinds t ht]
    simp
  refine ⟨Stylesheet.endLine (tokenize text), nodes, known, ?_⟩
  rw [Stylesheet.ofText, Stylesheet.ofTokens, source, front, ofTokens_nests nested]

/-- A text that is written for rules is read as those rules. -/
theorem ofText_written {text : String} {rules : List Rule} (h : Written text.toList Anywhere (ReadsRules rules)) :
    Stylesheet.ofText text = ⟨rules, []⟩ := by
  obtain ⟨stop, nodes, reads, read⟩ := ofText_form h trivial
  rw [read]
  simp only [reads.all (.inr rfl)]

/-- Where the rules of a text are made of plain words, its compact form is its own compact form. -/
theorem compact_ofText_compact {css : String} (h : Rule.AllCanonical (Stylesheet.ofText css).rules) :
    (Stylesheet.ofText (Stylesheet.ofText css).compact).compact = (Stylesheet.ofText css).compact := by
  have again := ofText_written (Rule.allWritten (Stylesheet.ofText css).rules h)
  rw [← Stylesheet.compact] at again
  rw [again, Stylesheet.compact, Rule.allOnLine_eq, Rule.compactList_moved, Stylesheet.compact]

/-! Quotes in a string. -/

/-- A quote and a semicolon at the end of a source are a string that is not closed. -/
theorem ReadBefore.unclosed : (⟨.string (String.ofList [';']), ['"', ';']⟩ : Piece).ReadBefore [] := by
  refine ⟨List.all_eq_true.mp (by decide), comments_of_first (by decide) _, '"', [';'], rfl, ?_⟩
  unfold token
  simp [punctuation?, isSpace, stringToken, string.eq_def, Scan.behind]

/-- The encoding of a character set is cut at the first quote in it, and what was behind the quote is lost. -/
theorem ofText_compact_charset {line : Nat} {encoding word : String} (he : IsAddress encoding)
    (hw : isIdentifier word.toList = true) :
    Stylesheet.ofText (Stylesheet.compact ⟨[.charset line (encoding ++ "\"" ++ word)], []⟩) = ⟨[.charset 1 encoding], []⟩ := by
  let pieces := [Piece.atWord "charset".toList, Piece.space, Piece.quoted encoding.toList, Piece.word word.toList,
    ⟨.string (String.ofList [';']), ['"', ';']⟩]
  have whole : Written (spelling pieces) (· = []) (Leaves pieces) := by
    refine .leaves ?_ ?_
    · simp [pieces, Piece.atWord, Piece.space, Piece.mark, Piece.quoted, Piece.word, TokenKind.IsLeaf, TokenKind.opens?]
    · rintro rest rfl
      exact ⟨ReadBefore.atWord (by decide) (StopsAt.cons (by decide)), ReadBefore.space (StopsAt.cons (by decide)),
        ReadBefore.quoted he _, ReadBefore.word hw (StopsAt.cons (by decide)), ReadBefore.unclosed, trivial⟩
  have text : (Stylesheet.compact ⟨[.charset line (encoding ++ "\"" ++ word)], []⟩).toList = spelling pieces := by
    simp [Stylesheet.compact, Rule.compactList, Rule.compact, pieces, spelling, Piece.atWord, Piece.space, Piece.mark,
      Piece.quoted, Piece.word]
  rw [← text] at whole
  obtain ⟨stop, nodes, ⟨ts, carries, rfl⟩, read⟩ := ofText_form whole rfl
  obtain ⟨t, none, rfl, kind, -, line', carries⟩ := carries.cons
  obtain ⟨w, none, rfl, white, -, -, carries⟩ := carries.cons
  obtain ⟨q, none, rfl, value, -, -, carries⟩ := carries.cons
  obtain ⟨v, none, rfl, ident, -, -, carries⟩ := carries.cons
  obtain ⟨u, none, rfl, last, -, -, carries⟩ := carries.cons
  obtain rfl := carries.nil
  have keyword : (Node.leaf t).kind? = some (.atKeyword "charset") := by simp [Node.kind?, kind, Piece.atWord]
  have lower : "charset".toLower = "charset" := Selector.toLower_eq_self_of_all (by decide)
  have inside : ∀ n ∈ [Node.leaf w, .leaf q, .leaf v, .leaf u], InPrelude n := by
    simp [InPrelude, Node.isCurly, Node.kind?, white, value, ident, last, Piece.space, Piece.mark, Piece.quoted,
      Piece.word]
  have rule : atRuleWithoutBlock "charset" 1 [Node.leaf u, .leaf v, .leaf q, .leaf w] = .charset 1 encoding := by
    simp [atRuleWithoutBlock, ComponentValue.ofNodes, ComponentValue.ofNode, white, value, ident, last, Piece.space,
      Piece.mark, Piece.quoted, Piece.word]
    rfl
  have course : readRules false ⟨false, stop⟩ (.atRule "charset" 1 []) ([.leaf w, .leaf q, .leaf v, .leaf u] ++ []) = _ :=
    readRules_prelude inside
  rw [List.append_nil, List.append_nil] at course
  have nodes : readRules false ⟨false, stop⟩ .nothing ([t, w, q, v, u].map .leaf) = ⟨[.charset 1 encoding], []⟩ := by
    rw [List.map_cons, readRules.eq_def]
    simp only [keyword, lower, show (Node.leaf t).line = 1 from line']
    rw [List.map_cons, List.map_cons, List.map_cons, List.map_cons, List.map_nil, course, readRules.eq_def]
    -- the semicolon is within the last string, so that the rule ends with the source
    simp [rule, endOfRules, Reading.item]
  rw [read, nodes]

/-- So the compact form of such a source is not read as what it was written from, and is another text the second time. -/
theorem compact_ofText_compact_ne {css encoding word : String} {line : Nat}
    (h : (Stylesheet.ofText css).rules = [.charset line (encoding ++ "\"" ++ word)]) (he : IsAddress encoding)
    (hw : isIdentifier word.toList = true) :
    (Stylesheet.ofText (Stylesheet.ofText css).compact).compact ≠ (Stylesheet.ofText css).compact := by
  have written : (Stylesheet.ofText css).compact =
      Stylesheet.compact ⟨[.charset line (encoding ++ "\"" ++ word)], []⟩ := by
    rw [Stylesheet.compact, h, Stylesheet.compact]
  rw [written, ofText_compact_charset he hw]
  intro same
  have lengths := congrArg String.length same
  have quote : "\"".length = 1 := rfl
  simp only [Stylesheet.compact, Rule.compactList, Rule.compact, String.length_append] at lengths
  omega

/-- A quote in a string is written without the backslash that was before it. What is read back from that has no issues
either, but it is another style sheet. -/
theorem compact_quote :
    (Stylesheet.ofText "@import \"a\\\"b\";").issues = [] ∧
      (Stylesheet.ofText "@import \"a\\\"b\";").compact = "@import url(\"a\"b\");" ∧
      (Stylesheet.ofText (Stylesheet.ofText "@import \"a\\\"b\";").compact).compact = "@import url(\"a\");" ∧
      (Stylesheet.ofText (Stylesheet.ofText "@import \"a\\\"b\";").compact).compact ≠
        (Stylesheet.ofText "@import \"a\\\"b\";").compact := by
  decide +kernel

end StyleAudit.Css
