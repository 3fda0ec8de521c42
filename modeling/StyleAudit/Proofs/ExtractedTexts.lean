import StyleAudit.Proofs.Excerpts
import StyleAudit.Proofs.TightenedText
/-!
Tokens of the texts that a style sheet keeps. In a source without comments each text is read as the tokens that it was taken
from, unless white space is lost that set two of them apart.
-/
namespace StyleAudit.Css

/-! What stands behind a text. -/

theorem endsText_of_closes {t : Token} {rest : List Char} (read : t.piece.IsRead rest) (closes : t.kind.closesText = true)
    (behind : List Char) : EndsText (t.lexeme ++ behind) := by
  have other {kind : TokenKind} (stays : kind.closesText = false) : t.kind ≠ kind := by
    rintro rfl
    rw [closes] at stays
    cases stays
  exact read.endsText (other rfl) (fun _ => other rfl) (other rfl) behind

/-! The characters of a text. -/

theorem mem_compactFrom {last : Option Char} {space : Bool} {ts : List Token} {c : Char}
    (h : c ∈ compactFrom last space ts) : c = ' ' ∨ ∃ t ∈ ts, c ∈ t.lexeme := by
  induction ts generalizing last space with
  | nil => cases h
  | cons t ts ih =>
      have later {last : Option Char} {space : Bool} (mem : c ∈ compactFrom last space ts) :
          c = ' ' ∨ ∃ u ∈ t :: ts, c ∈ u.lexeme :=
        (ih mem).imp id fun ⟨u, hu, hc⟩ => ⟨u, List.mem_cons_of_mem t hu, hc⟩
      rw [compactFrom] at h
      split at h
      · exact later h
      · rcases List.mem_append.mp h with front | behind
        · rcases List.mem_append.mp front with gap | here
          · split at gap
            · exact .inl (List.mem_singleton.mp gap)
            · cases gap
          · exact .inr ⟨t, List.mem_cons_self, here⟩
        · exact later behind

theorem normalChar_of_mem {text : List Char} {c : Char} (h : c ∈ normalize text) : normalChar c = c := by
  induction text using normalize.induct with
  | case1 => cases h
  | case2 rest ih =>
      rcases List.mem_cons.mp h with rfl | later
      · rfl
      · exact ih later
  | case3 d rest other ih =>
      rw [normalize] at h
      · rcases List.mem_cons.mp h with rfl | later
        · split
          · rfl
          · next feed =>
              split
              · rfl
              · next null => rw [normalChar, if_neg feed, if_neg null]
        · exact ih later
      · exact other

theorem normalize_eq_self {text : List Char} (h : ∀ c ∈ text, normalChar c = c) : normalize text = text := by
  have ends : '\r' ∉ text := fun mem => absurd (h _ mem) (by decide)
  rw [normalize_eq_map ends]
  exact (List.map_congr_left h).trans (List.map_id _)

/-- A token of a source is spelled in normal form. -/
theorem normalChar_lexeme {css : String} {t : Token} (ht : t ∈ tokenize css) : ∀ c ∈ t.lexeme, normalChar c = c := by
  intro c hc
  obtain ⟨ahead, behind, same, -⟩ := (tokensFrom_laid {} (normalize css.toList)).position ht
  have member : c ∈ normalize css.toList := by
    rw [same]
    exact List.mem_append_right _ (List.mem_append_left _ hc)
  exact normalChar_of_mem member

/-- So is the text of tokens. -/
theorem normalChar_compactText {css : String} {ts : List Token} (part : ∀ t ∈ ts, t ∈ tokenize css) :
    ∀ c ∈ compactText ts, normalChar c = c := by
  intro c mem
  rcases mem_compactFrom mem with rfl | ⟨t, ht, hc⟩
  · rfl
  · exact normalChar_lexeme (part t ht) c hc

/-! Whole style sheets. -/

/-- Every text that a style sheet keeps is taken from a run of tokens of its source. From the text of distinct tokens the
same tokens are read again, with white space where they have it, except at the ends and next to commas. -/
theorem ofText_texts {css : String} (free : IsCommentFree css) (whole : ∀ t ∈ tokenize css, t.kind ≠ .badString) :
    ∃ runs, Excerpts true runs (tokenize css) ∧ runs.map textOfTokens = (Stylesheet.ofText css).texts ∧
      ∀ run ∈ runs, IsDistinct run →
        (tokenize (textOfTokens run)).map Token.kind = tightKinds .comma (run.map Token.kind) ++ [.endOfSource] := by
  obtain ⟨body, tokens, inside⟩ := (tokensFrom_laid {} (normalize css.toList)).finish
  have tokens : tokenize css = body ++ [⟨.endOfSource, Place.after {} (normalize css.toList), []⟩] := tokens
  obtain ⟨runs, excerpts, texts⟩ : ∃ runs, Excerpts true runs (tokenize css) ∧
      runs.map textOfTokens = (Stylesheet.ofText css).texts := by
    rw [Stylesheet.ofText, tokens]
    exact excerpts_ofTokens (fun t mem => (inside t mem).1) rfl
  refine ⟨runs, excerpts, texts, fun run mem distinct => ?_⟩
  obtain ⟨before, stop, behind, same, closes⟩ := excerpts.mem mem
  have row := inRow_tokens tokens free
  have part : ∀ t ∈ run, t ∈ tokenize css := fun t ht => by
    rw [same]
    exact List.mem_append_right _ (List.mem_append_left _ ht)
  have whole := fun t ht => whole t (part t ht)
  -- either the source ends behind the run, or the token there begins like none of those a string or white space begins with
  have read : ∃ rest, InRow (run.map Token.piece) rest ∧ EndsText rest := by
    rw [tokens, ← List.append_assoc] at same
    rcases List.eq_nil_or_concat behind with rfl | ⟨between, last, rfl⟩
    · obtain ⟨rfl, -⟩ := List.append_inj' same rfl
      rw [List.map_append, inRow_append] at row
      exact ⟨[], row.2, fun c first => by cases first⟩
    · rw [List.concat_eq_append, ← List.cons_append, ← List.append_assoc] at same
      obtain ⟨rfl, -⟩ := List.append_inj' same rfl
      rw [List.map_append, List.map_append, inRow_append, inRow_append, List.map_cons, spelling_cons, List.append_nil] at row
      exact ⟨_, row.1.2, endsText_of_closes row.2.1 closes _⟩
  obtain ⟨rest, row, ends⟩ := read
  rw [tokenize, textOfTokens, String.toList_ofList, normalize_eq_self (normalChar_compactText part), Css.tokens]
  exact kinds_compactText row ends whole distinct {}

theorem ofText_texts_value : IsCommentFree "a , b > c\x7bd: e  f\x7d" ∧
    (∀ t ∈ tokenize "a , b > c\x7bd: e  f\x7d", t.kind ≠ .badString) ∧
    ∃ runs, Excerpts true runs (tokenize "a , b > c\x7bd: e  f\x7d") ∧
      runs.map textOfTokens = (Stylesheet.ofText "a , b > c\x7bd: e  f\x7d").texts ∧
      ∀ run ∈ runs, IsDistinct run →
        (tokenize (textOfTokens run)).map Token.kind = tightKinds .comma (run.map Token.kind) ++ [.endOfSource] := by
  have free : IsCommentFree "a , b > c\x7bd: e  f\x7d" := by
    unfold IsCommentFree
    decide +kernel
  have whole : ∀ t ∈ tokenize "a , b > c\x7bd: e  f\x7d", t.kind ≠ .badString := by decide +kernel
  exact ⟨free, whole, ofText_texts free whole⟩

theorem mem_tightKinds {previous k : TokenKind} {kinds : List TokenKind} (h : k ∈ tightKinds previous kinds) : k ∈ kinds := by
  induction kinds generalizing previous with
  | nil => cases h
  | cons j kinds ih =>
      rw [tightKinds] at h
      split at h
      · exact List.mem_cons_of_mem j (ih h)
      · rcases List.mem_cons.mp h with rfl | later
        · exact List.mem_cons_self
        · exact List.mem_cons_of_mem j (ih later)

/-- Behind an escaped comma the white space is lost, and two names are read as one. -/
theorem ofText_texts_comma : IsCommentFree ".a\\, b\x7b\x7d" ∧ (∀ t ∈ tokenize ".a\\, b\x7b\x7d", t.kind ≠ .badString) ∧
    ¬ ∃ runs, Excerpts true runs (tokenize ".a\\, b\x7b\x7d") ∧
      runs.map textOfTokens = (Stylesheet.ofText ".a\\, b\x7b\x7d").texts ∧
      ∀ run ∈ runs,
        (tokenize (textOfTokens run)).map Token.kind = tightKinds .comma (run.map Token.kind) ++ [.endOfSource] := by
  refine ⟨by unfold IsCommentFree; decide +kernel, by decide +kernel, ?_⟩
  rintro ⟨runs, excerpts, texts, kept⟩
  have text : (Stylesheet.ofText ".a\\, b\x7b\x7d").texts = [".a\\,b"] := by decide +kernel
  rw [text] at texts
  obtain ⟨run, rest, rfl, same, -⟩ := List.map_eq_cons_iff.mp texts
  have glued : (tokenize ".a\\,b").map Token.kind = [.delim '.', .ident "a,b", .endOfSource] := by decide +kernel
  have kinds : .ident "a,b" ∈ run.map Token.kind := by
    have again : [.delim '.', .ident "a,b"] ++ [.endOfSource] = tightKinds .comma (run.map Token.kind) ++ [.endOfSource] := by
      rw [← kept run List.mem_cons_self, same, glued]
      rfl
    have mem : .ident "a,b" ∈ tightKinds .comma (run.map Token.kind) := by
      rw [← List.append_cancel_right again]
      exact List.mem_cons_of_mem _ List.mem_cons_self
    exact mem_tightKinds mem
  obtain ⟨before, stop, behind, source, -⟩ := excerpts.mem List.mem_cons_self
  have absent : .ident "a,b" ∉ (tokenize ".a\\, b\x7b\x7d").map Token.kind := by decide +kernel
  apply absent
  rw [source, List.map_append, List.map_append]
  exact List.mem_append_right _ (List.mem_append_left _ kinds)

end StyleAudit.Css
