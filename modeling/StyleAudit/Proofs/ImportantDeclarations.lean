import StyleAudit.Css.Compact
import StyleAudit.Proofs.ExtractedTexts
import StyleAudit.Proofs.ThinnedNodes
import StyleAudit.Proofs.UnmarkedSources
/-!
Declarations with an `!important` mark. What is kept of one is what is kept of the same declaration without the mark, its text
trimmed; and where that trims nothing, its compact form is read as the same declaration again.
-/
namespace StyleAudit.Css

open Node (listTokens listTokens_append)
open Selector (StopsAt isIdentifier)
open Text (trimEnd isBlank)

/-! The same declaration without its mark. -/

/-- A declaration with a mark, and the same declaration without it. With the mark, the text is trimmed. -/
structure Declaration.Unmarks (d d' : Declaration) : Prop where
  name : d'.name = d.name
  line : d'.line = d.line
  value : d'.important = false → d.value = d'.value
  text : d'.important = false → d.text.toList = trimEnd d'.text.toList

theorem MarkedText.Writes.unmarks {w : MarkedText} {d : Declaration} (h : w.Writes d) :
    d.Unmarks (declaration d.name d.line w.value.reverse) := by
  obtain ⟨name, line, marked⟩ := declaration_of d.name d.line w.value.reverse
  have plain (none : (declaration d.name d.line w.value.reverse).important = false) :
      declaration d.name d.line w.value.reverse =
        ⟨d.name, ComponentValue.ofNodes w.value, String.ofList (compactText (listTokens w.value)), false, d.line⟩ := by
    rw [marked, Option.isSome_eq_false_iff, Option.isNone_iff_eq_none] at none
    exact declaration_unmarked d.name d.line h.ends none
  refine ⟨name, line, fun none => ?_, fun none => ?_⟩
  · rw [plain none, h.value]
  · rw [plain none, h.text, String.toList_ofList]

/-! Sources that differ in their places alone. -/

mutual
theorem Rule.declarations_moved (g : Nat → Nat) : ∀ r : Rule, (r.moved g).declarations = r.declarations.map (Declaration.moved g)
  | .style r => rfl
  | .group line name prelude rules => by rw [moved, declarations, declarations, listDeclarations_moved g rules]
  | .keyframes line keyword name frames => by
      rw [moved, declarations, declarations, List.flatMap_map, List.map_flatMap]
      rfl
  | .descriptors line name prelude ds => rfl
  | .charset .. => rfl
  | .imported .. => rfl
  | .statement .. => rfl

theorem Rule.listDeclarations_moved (g : Nat → Nat) : ∀ rules : List Rule,
    listDeclarations (listMoved g rules) = (listDeclarations rules).map (Declaration.moved g)
  | [] => rfl
  | r :: rest => by
      rw [listMoved, listDeclarations, listDeclarations, List.map_append, declarations_moved g r, listDeclarations_moved g rest]
end

/-- A token taken from its place. -/
def Token.unplaced (t : Token) : Token := { t with place := ⟨0, 0⟩ }

theorem moves_unplaced : Moves Token.unplaced fun _ => 0 := ⟨fun _ => rfl, fun _ => rfl, fun _ => rfl⟩

/-- From the same tokens, at other places, the same style sheet is read, but for the lines. -/
theorem Stylesheet.moved_pieces {ts us : List Token} (some : ts ≠ []) (same : ts.map Token.piece = us.map Token.piece) :
    (ofTokens ts).moved (fun _ => 0) = (ofTokens us).moved fun _ => 0 := by
  have some' : us ≠ [] := by
    rintro rfl
    exact some (List.map_eq_nil_iff.mp same)
  have unplaced : ts.map Token.unplaced = us.map Token.unplaced := by
    have pieces (ts : List Token) : ts.map Token.unplaced = (ts.map Token.piece).map fun p => ⟨p.kind, ⟨0, 0⟩, p.lexeme⟩ := by
      rw [List.map_map]
      rfl
    rw [pieces, pieces, same]
  rw [← ofTokens_moved moves_unplaced some, ← ofTokens_moved moves_unplaced some', unplaced]

/-- So are the same declarations. -/
theorem Stylesheet.declarations_pieces {ts us : List Token} (some : ts ≠ []) (same : ts.map Token.piece = us.map Token.piece) :
    (ofTokens ts).declarations.map (Declaration.moved fun _ => 0) =
      (ofTokens us).declarations.map (Declaration.moved fun _ => 0) := by
  rw [declarations, declarations, ← Rule.listDeclarations_moved, ← Rule.listDeclarations_moved]
  exact congrArg (Rule.listDeclarations ∘ Stylesheet.rules) (moved_pieces some same)

/-! A value that is read again. -/

theorem thins_tightKinds (previous : TokenKind) (ks : List TokenKind) : Thins ks (tightKinds previous ks) := by
  induction ks generalizing previous with
  | nil => exact .nil
  | cons k ks ih =>
      rw [tightKinds]
      split
      · next cut =>
          rw [cut.1]
          exact .drop (ih previous)
      · exact .keep k (ih k)

theorem head?_tightKinds {ks : List TokenKind} {k : TokenKind} (h : (tightKinds .comma ks).head? = some k) :
    k ≠ .whitespace := by
  induction ks with
  | nil => cases h
  | cons j ks ih =>
      rw [tightKinds] at h
      split at h
      · exact ih h
      · next kept =>
          obtain rfl := Option.some.inj h
          exact fun blank => kept ⟨blank, .inl rfl⟩

/-- A last token that is no white space stays the last. -/
theorem getLast?_tightKinds {ks : List TokenKind} {k : TokenKind} (h : ks.getLast? = some k) (visible : k ≠ .whitespace)
    (previous : TokenKind) : (tightKinds previous ks).getLast? = some k := by
  induction ks generalizing previous with
  | nil => cases h
  | cons j ks ih =>
      rw [tightKinds]
      cases ks with
      | nil =>
          obtain rfl := Option.some.inj h
          rw [if_neg fun both => visible both.1]
          rfl
      | cons i ks =>
          rw [List.getLast?_cons_cons] at h
          split
          · exact ih h previous
          · rw [List.getLast?_cons, ih h]
            rfl

section
variable {around : Option Bracket} {ns : List Node} (nested : Node.AreNested around false ns)
include nested

/-- Closed nodes end in white space if and only if their tokens do. -/
theorem endsVisibly_iff : EndsVisibly ns ↔ ∀ t ∈ (listTokens ns).getLast?, t.kind ≠ .whitespace := by
  rcases List.eq_nil_or_concat ns with rfl | ⟨before, n, rfl⟩
  · simp [EndsVisibly, listTokens]
  · rw [List.concat_eq_append] at nested ⊢
    obtain ⟨-, last, -⟩ := Node.areNested_append.mp nested
    rw [EndsVisibly, List.getLast?_concat, listTokens_append, listTokens, listTokens, List.append_nil]
    cases n with
    | leaf t =>
        rw [Node.tokens, List.getLast?_concat]
        refine ⟨?_, ?_⟩
        · rintro visible _ ⟨⟩ blank
          exact visible _ rfl (congrArg some blank)
        · rintro visible _ ⟨⟩ blank
          exact visible _ rfl (Option.some.inj blank)
    | block opening opener contents closer =>
        obtain ⟨-, -, closes, ends⟩ := last
        cases closer with
        | none => exact absurd (ends rfl) Bool.false_ne_true
        | some c =>
            refine ⟨fun _ => ?_, fun _ => ?_⟩
            · rw [Node.tokens, Option.toList_some, ← List.cons_append, ← List.append_assoc, List.getLast?_concat]
              rintro _ ⟨⟩
              simp [closes c rfl]
            · rintro _ ⟨⟩
              simp [Node.kind?]

/-- Nodes that are read from the tokens of closed nodes with their white space cut down. -/
theorem exists_reread {us : List Token} (cut : us.map Token.piece = tightened .comma ((listTokens ns).map Token.piece)) :
    ∃ ms, listTokens ms = us ∧ Node.AreNested around false ms ∧ Sifts ns ms ∧
      (∀ m ∈ ms.head?, m.kind? ≠ some .whitespace) ∧ (EndsVisibly ns → EndsVisibly ms) ∧
      ComponentValue.listKinds (ComponentValue.ofNodes ms) =
        tightKinds .comma (ComponentValue.listKinds (ComponentValue.ofNodes ns)) := by
  have kinds : us.map Token.kind = tightKinds .comma ((listTokens ns).map Token.kind) := by
    rw [← kinds_pieces, cut, kinds_tightened, kinds_pieces]
  obtain ⟨ms, rfl, nested', same⟩ := exists_thinned ns nested (kinds ▸ thins_tightKinds _ _)
  refine ⟨ms, rfl, nested', same, ?_, fun ends => ?_, ?_⟩
  · cases ms with
    | nil => simp
    | cons m ms =>
        rintro _ ⟨⟩ blank
        obtain ⟨t, rfl, kind⟩ := leaf_of_kind? blank
        have first : (tightKinds .comma ((listTokens ns).map Token.kind)).head? = some t.kind := by
          rw [← kinds]
          rfl
        exact head?_tightKinds first kind
  · rw [endsVisibly_iff nested']
    rw [endsVisibly_iff nested] at ends
    intro t last blank
    have last : ((listTokens ms).map Token.kind).getLast? = some t.kind := by
      rw [List.getLast?_map, last]
      rfl
    cases final : (listTokens ns).getLast? with
    | none =>
        rw [List.getLast?_eq_none_iff.mp final] at kinds
        rw [kinds] at last
        cases last
    | some u =>
        have final' : ((listTokens ns).map Token.kind).getLast? = some u.kind := by
          rw [List.getLast?_map, final]
          rfl
        have stays := getLast?_tightKinds final' (ends u final) .comma
        rw [← kinds, last] at stays
        exact ends u final ((Option.some.inj stays).symm.trans blank)
  · rw [ComponentValue.listKinds_ofNodes ms nested', kinds, ComponentValue.listKinds_ofNodes ns nested]

end

/-- The tokens of a mark open nothing and close nothing, and none of them ends a declaration. -/
theorem Mark.IsWritten.leaves {m : Mark} (h : m.IsWritten) (around : Option Bracket) (last : Bool) :
    Node.AreNested around last (m.tokens.map Node.leaf) ∧ ∀ n ∈ m.tokens.map Node.leaf, n.kind? ≠ some .semicolon := by
  obtain ⟨word, kind, -⟩ := h.word
  constructor
  · rw [tokens, List.map_append, List.map_cons, List.map_append, Node.areNested_append]
    exact ⟨h.before.areNested _ _, isNested_leaf h.bang rfl (by simp) (by simp) _ _,
      Node.areNested_append.mpr ⟨h.gap.areNested _ _, isNested_leaf kind rfl (by simp) (by simp) _ _, trivial⟩⟩
  · intro n hn same
    obtain ⟨t, ht, rfl⟩ := List.mem_map.mp hn
    have same : t.kind = .semicolon := Option.some.inj same
    simp only [tokens, List.mem_append, List.mem_cons, List.not_mem_nil, or_false] at ht
    rcases ht with before | rfl | gap | rfl
    · cases same.symm.trans (h.before t before)
    · cases same.symm.trans h.bang
    · cases same.symm.trans (h.gap t gap)
    · cases same.symm.trans kind

theorem selectors_word {t : Token} {word : String} (kind : t.kind = .ident word) (letters : t.lexeme ≠ []) (line : Nat) :
    selectors line [.leaf t] = ⟨[String.ofList t.lexeme], []⟩ := by
  have text : compactText [t] = t.lexeme := by
    rw [compactText, compactFrom_visible (by simp [kind]), compactFrom, List.append_nil]
    rfl
  have split : splitSelectors 0 [t] = [[t]] := by simp [splitSelectors, kind]
  have some : String.ofList t.lexeme ≠ "" := fun none => letters (String.ofList_inj.mp none)
  simp [selectors, listTokens, Node.tokens, split, text, some]

/-- The style sheet of a rule with one selector and one declaration, which has a mark. -/
theorem ofTokens_marked {selector opener property colon closer : Token} {word name : String} {value : List Node} {m : Mark}
    (selectorKind : selector.kind = .ident word) (letters : selector.lexeme ≠ []) (openerKind : opener.kind = .opening .curly)
    (propertyKind : property.kind = .ident name) (colonKind : colon.kind = .colon)
    (closerKind : closer.kind = .closing .curly) (nested : Node.AreNested (some .curly) false value)
    (within : ∀ n ∈ value, n.kind? ≠ some .semicolon) (first : ∀ n ∈ value.head?, n.kind? ≠ some .whitespace)
    (ends : EndsVisibly value) (written : m.IsWritten) (spelled : m.IsSpelled) (bare : m.before = []) (stop : Place) :
    Stylesheet.ofTokens (selector :: opener :: property :: colon ::
        (listTokens value ++ (m.tokens ++ closer :: [⟨.endOfSource, stop, []⟩]))) =
      ⟨[.style ⟨selector.line, [String.ofList selector.lexeme],
        [⟨name, ComponentValue.ofNodes value, String.ofList (trimEnd (compactText (listTokens value))), true,
          property.line⟩]⟩], []⟩ := by
  obtain ⟨leaves, apart⟩ := written.leaves (some .curly) false
  let body : Clause := .declaration property name [] colon [] (value ++ m.tokens.map Node.leaf)
  let rule : Clause := .style [.leaf selector] opener [body] (some closer)
  have fits : Clause.AllFit (.rules false) [rule] := by
    refine ⟨⟨⟨false, rfl, ?_⟩, ?_, ⟨rfl, propertyKind, List.forall_mem_nil _, colonKind, List.forall_mem_nil _, ?_, ?_,
      by simp [Clause.listNodes]⟩, trivial⟩, trivial⟩
    · rintro _ ⟨⟩ kind same
      have same : selector.kind = kind := Option.some.inj same
      rw [← same, selectorKind]
      exact ⟨by simp [Level.idle], by simp, by simp⟩
    · rintro n hn
      obtain rfl := List.mem_singleton.mp hn
      rfl
    · cases value with
      | nil =>
          rw [Mark.tokens, bare]
          rintro _ ⟨⟩ same
          cases (Option.some.inj same).symm.trans written.bang
      | cons n value => exact first
    · exact List.forall_mem_append.mpr ⟨within, apart⟩
  have inside : Node.AreNested none true (Clause.listNodes [rule]) := by
    refine ⟨isNested_leaf selectorKind rfl (by simp) (by simp) _ _, ⟨by rw [openerKind]; rfl, ?_, ?_, by simp⟩, trivial⟩
    · have whole : Node.AreNested (some .curly) false (value ++ m.tokens.map Node.leaf ++ []) := by
        rw [List.append_nil]
        exact Node.areNested_append.mpr ⟨nested.anywhere, leaves⟩
      exact ⟨isNested_leaf propertyKind rfl (by simp) (by simp) _ _, isNested_leaf colonKind rfl (by simp) (by simp) _ _, whole⟩
    · rintro _ ⟨⟩
      exact closerKind
  have sheet := ofTokens_outline fits inside stop
  have tokens : listTokens (Clause.listNodes [rule]) ++ [⟨.endOfSource, stop, []⟩] =
      selector :: opener :: property :: colon :: (listTokens value ++ (m.tokens ++ closer :: [⟨.endOfSource, stop, []⟩])) := by
    simp [rule, body, Clause.listNodes, Clause.nodes, listTokens, Node.tokens, listTokens_append, listTokens_leaves]
  have kept : declaration name property.line (value ++ (m.tokens ++ []).map Node.leaf).reverse = _ :=
    declaration_marked name property.line written spelled (List.forall_mem_nil _) ends
  rw [List.append_nil] at kept
  have declared : body.declaration? = some _ := congrArg some kept
  have known : selectors selector.line [Node.leaf selector] = _ := selectors_word selectorKind letters _
  rw [tokens] at sheet
  rw [sheet]
  simp [rule, Clause.listRules, Clause.rule?, Clause.listIssues, Clause.issues, Clause.start, Node.first, known, declared]
  rfl

/-! The compact form of a declaration with a mark. -/

/-- The pieces of a compact mark, with the end of the block. -/
def markPieces : List Piece := [.bang, .word "important".toList, .mark (.closing .curly) '\x7d']

/-- The pieces of a rule with one selector and one declaration with a mark, in its compact form. -/
def rulePieces (word name : List Char) (value : List Piece) : List Piece :=
  .word word :: .mark (.opening .curly) '\x7b' :: .word name :: .mark .colon ':' :: (value ++ markPieces)

theorem startsMark_markPieces : StartsMark (spelling markPieces) := ⟨_, _, rfl, .inr ⟨rfl, by decide⟩⟩

theorem inRow_markPieces : InRow markPieces [] := by
  have word : isIdentifier "important".toList = true := by decide
  exact ⟨(ReadBefore.bang _).isRead, (ReadBefore.word word (StopsAt.cons (by decide))).isRead, (ReadBefore.mark rfl _).isRead,
    trivial⟩

theorem inRow_rulePieces {word name : List Char} {value : List Piece} (hw : isIdentifier word = true) (hn : IsName name)
    (hv : InRow value (spelling markPieces)) : InRow (rulePieces word name value) [] := by
  have inside : InRow (value ++ markPieces) [] := inRow_append.mpr ⟨by rwa [List.append_nil], inRow_markPieces⟩
  exact ⟨(ReadBefore.word hw (StopsAt.cons (by decide))).isRead, (ReadBefore.mark rfl _).isRead,
    (ReadBefore.plainName hn (StopsAt.cons (by decide))).isRead, (ReadBefore.mark rfl _).isRead, inside⟩

theorem spelling_rulePieces (word name : List Char) (value : List Piece) :
    spelling (rulePieces word name value) = word ++ ('\x7b' :: (name ++ (':' :: (spelling value ++ spelling markPieces)))) := by
  simp [rulePieces, spelling, Piece.word, Piece.mark]

theorem normalChar_of_isInline {c : Char} (h : isInline c = true) : normalChar c = c := by
  simp only [isInline, Bool.and_eq_true, bne_iff_ne, ne_eq] at h
  obtain ⟨⟨⟨-, return_⟩, feed⟩, null⟩ := h
  rw [normalChar, if_neg (not_or.mpr ⟨return_, feed⟩), if_neg null]

theorem inline_markPieces : ∀ c ∈ spelling markPieces, isInline c = true := List.all_eq_true.mp (by decide)

/-- The tokens of such a rule. All that is in front of the value is on the first line. -/
theorem placed_rulePieces {word : String} (hw : isIdentifier word.toList = true) (name : List Char) (value : List Piece) :
    ∃ p₁ p₂ p₃ p₄ p₅ p₆ p₇ : Place, placed {} (rulePieces word.toList name value) =
      ⟨.ident word, {}, word.toList⟩ :: ⟨.opening .curly, p₁, ['\x7b']⟩ :: ⟨.ident (String.ofList name), p₂, name⟩ ::
        ⟨.colon, p₃, [':']⟩ :: (placed p₄ value ++ [⟨.delim '!', p₅, ['!']⟩, ⟨.ident "important", p₆, "important".toList⟩,
          ⟨.closing .curly, p₇, ['\x7d']⟩]) ∧ p₂.line = 1 := by
  let p₁ := Place.after {} word.toList
  let p₂ := p₁.after ['\x7b']
  let p₄ := (p₂.after name).after [':']
  let p₅ := p₄.after (spelling value)
  refine ⟨p₁, p₂, p₂.after name, p₄, p₅, p₅.after ['!'], (p₅.after ['!']).after "important".toList, ?_, ?_⟩
  · have selector : Piece.word word.toList = ⟨.ident word, word.toList⟩ := by rw [Piece.word, String.ofList_toList]
    rw [rulePieces, selector, placed, placed, placed, placed, placed_append]
    rfl
  · rw [line_after_inline (List.all_eq_true.mp (by decide)), line_after_inline fun c hc =>
      isInline_of_isNameChar ((IsName.of_isIdentifier hw).letters c hc)]

/-- What a declaration with a mark and the source of it must be like for its compact form to be read as the same declaration:
its name needs no escape, its value has no comment in it, and nothing is trimmed off its text. -/
structure MarkedText.IsShown (w : MarkedText) (d : Declaration) : Prop where
  name : IsName d.name.toList
  joined : SideBySide (listTokens w.value)
  whole : ∀ t ∈ listTokens w.value, t.kind ≠ .badString
  distinct : IsDistinct (listTokens w.value)
  text : d.text.toList = compactText (listTokens w.value)

/-- A token whose last character tells no more than the token: it is a comma only if the token is one, and a blank only if the
token is white space. -/
def Token.isPlain (t : Token) : Bool :=
  t.kind != .badString && t.kind != .delim '\\' && (t.lexeme.getLast? != some ',' || t.kind == .comma) &&
    (t.kind == .whitespace || !t.lexeme.getLast?.any isBlank)

section
variable {t : Token} (h : t.isPlain = true)
include h

theorem Token.isPlain_kind : t.kind ≠ .badString ∧ t.kind ≠ .delim '\\' := by
  simp only [isPlain, Bool.and_eq_true, bne_iff_ne] at h
  exact h.1.1

theorem Token.isPlain_comma (last : t.lexeme.getLast? = some ',') : t.kind = .comma := by
  simp only [isPlain, Bool.and_eq_true, Bool.or_eq_true, bne_iff_ne, beq_iff_eq] at h
  exact h.1.2.resolve_left fun other => other last

theorem Token.isPlain_blank (visible : t.kind ≠ .whitespace) {c : Char} (last : t.lexeme.getLast? = some c) :
    isBlank c = false := by
  simp only [isPlain, Bool.and_eq_true, Bool.or_eq_true, beq_iff_eq] at h
  have none := h.2.resolve_left visible
  rw [last, Option.any_some, Bool.not_eq_true'] at none
  exact none

end

theorem isDistinct_of_plain {ts : List Token} (plain : ∀ t ∈ ts, t.isPlain = true) : IsDistinct ts where
  backslash t ht := (Token.isPlain_kind (plain t ht)).2
  comma t _ _ row last _ := .inl (Token.isPlain_comma (plain t (row.subset List.mem_cons_self)) last)

/-- Nothing is trimmed off the text of plain tokens that do not end in white space. -/
theorem trimEnd_compactText {ts : List Token} (ends : ∀ t ∈ ts.getLast?, t.kind ≠ .whitespace)
    (plain : ∀ t ∈ ts, t.isPlain = true) (letters : ∀ t ∈ ts, t.lexeme ≠ []) : trimEnd (compactText ts) = compactText ts := by
  refine Text.trimEnd_eq_self fun c last => ?_
  rcases List.eq_nil_or_concat ts with rfl | ⟨before, t, rfl⟩
  · cases last
  · rw [List.concat_eq_append] at ends plain letters last
    have mem : t ∈ before ++ [t] := by simp
    have visible : t.kind ≠ .whitespace := ends t List.getLast?_concat
    obtain ⟨gap, last', -, text⟩ := compactFrom_append_cons visible before [] none false
    rw [compactText, text, compactFrom, List.append_nil, ← List.append_assoc, List.getLast?_append_of_ne_nil _ (letters t mem)] at last
    exact Token.isPlain_blank (plain t mem) visible last

section
variable {css : String} {w : MarkedText} {d : Declaration} {front behind : List Token}

/-- The value of a declaration with a mark, in a row in its source. -/
theorem MarkedText.Writes.exists_row (h : w.Writes d) (source : tokenize css = front ++ (w.tokens w.ending ++ behind))
    (joined : SideBySide (listTokens w.value)) :
    ∃ rest, InRow ((listTokens w.value).map Token.piece) rest ∧ EndsText rest ∧ rest ≠ [] := by
  have split : tokensFrom {} (normalize css.toList) =
      (front ++ w.property :: w.head) ++ (listTokens w.value ++ (w.ending ++ behind)) := by
    change tokenize css = _
    rw [source, tokens]
    simp only [List.append_assoc, List.cons_append]
  have ending : w.ending ++ behind =
      w.mark.before ++ w.mark.bang :: (w.mark.gap ++ [w.mark.word] ++ w.tail ++ behind) := by
    simp [MarkedText.ending, Mark.tokens]
  have some : w.mark.gap ++ [w.mark.word] ++ w.tail ++ behind ≠ [] := by simp
  have later : w.ending ++ behind ≠ [] := by simp [ending]
  obtain ⟨place, text, value⟩ := exists_tokensFrom split (List.append_ne_nil_of_right_ne_nil _ later)
  obtain ⟨_, rest, place, -, -, -, row, tokens⟩ := inRow_sideBySide value later joined
  rw [ending] at tokens
  refine ⟨rest, row, ?_, ?_⟩
  · have bang := h.mark.bang
    exact endsText_of_tokens tokens some h.mark.before (by simp [bang]) (fun _ => by simp [bang]) (by simp [bang])
  · rintro rfl
    have length := congrArg List.length tokens
    rw [tokensFrom_nil] at length
    simp at length
    omega

/-- In a source of plain tokens side by side nothing keeps a declaration with a mark from being read again, unless its name
needs an escape. -/
theorem MarkedText.Writes.isShown (h : w.Writes d) (source : tokenize css = front ++ (w.tokens w.ending ++ behind))
    (name : IsName d.name.toList) (joined : SideBySide (tokenize css)) (plain : ∀ t ∈ tokenize css, t.isPlain = true) :
    w.IsShown d := by
  have inside : listTokens w.value <:+: tokenize css := by
    refine ⟨front ++ w.property :: w.head, w.ending ++ behind, ?_⟩
    rw [source, MarkedText.tokens]
    simp only [List.append_assoc, List.cons_append]
  have part (t : Token) (ht : t ∈ listTokens w.value) : t.isPlain = true := plain t (inside.subset ht)
  refine ⟨name, joined.infix inside, fun t ht => (Token.isPlain_kind (part t ht)).1, isDistinct_of_plain part, ?_⟩
  rw [h.text]
  refine trimEnd_compactText ((endsVisibly_iff h.nested).mp h.ends) part fun t ht => ?_
  obtain ⟨rest, read⟩ := exists_isRead (inside.subset ht) (h.nested.ne_end _ t ht)
  exact read.nonempty

/-- The tokens that the compact form of a declaration is read as. -/
theorem MarkedText.Writes.tokenize_compact (h : w.Writes d) (source : tokenize css = front ++ (w.tokens w.ending ++ behind))
    (shown : w.IsShown d) {rest : List Char} (row : InRow ((listTokens w.value).map Token.piece) rest) (ends : EndsText rest)
    (some : rest ≠ []) {word : String} (hw : isIdentifier word.toList = true) :
    ∃ stop, tokenize (word ++ compactBlock d.compact) =
      placed {} (rulePieces word.toList d.name.toList (tightened .comma ((listTokens w.value).map Token.piece))) ++
        [⟨.endOfSource, stop, []⟩] := by
  generalize cut : tightened .comma ((listTokens w.value).map Token.piece) = value
  have closes : Closes (spelling markPieces) rest := .inr ⟨startsMark_markPieces, some⟩
  have inside := inRow_tightened row ends closes (shown.distinct.sound shown.whole) .comma
  rw [cut] at inside
  have text : d.text.toList = spelling value := by rw [shown.text, compactText_tightened row shown.distinct, cut]
  have spelled : (word ++ compactBlock d.compact).toList = spelling (rulePieces word.toList d.name.toList value) := by
    rw [spelling_rulePieces, ← text]
    simp [compactBlock, Declaration.compact, h.important, spelling, markPieces, Piece.word, Piece.mark, Piece.bang]
  have part : ∀ t ∈ listTokens w.value, t ∈ tokenize css := fun t ht => by
    rw [source, MarkedText.tokens]
    simp [ht]
  have normal : ∀ c ∈ spelling (rulePieces word.toList d.name.toList value), normalChar c = c := by
    have inline {text : List Char} (letters : ∀ c ∈ text, isNameChar c = true) : ∀ c ∈ text, normalChar c = c :=
      fun c hc => normalChar_of_isInline (isInline_of_isNameChar (letters c hc))
    rw [spelling_rulePieces, ← text, shown.text]
    refine List.forall_mem_append.mpr ⟨inline (IsName.of_isIdentifier hw).letters, List.forall_mem_cons.mpr ⟨rfl, ?_⟩⟩
    refine List.forall_mem_append.mpr ⟨inline shown.name.letters, List.forall_mem_cons.mpr ⟨rfl, ?_⟩⟩
    exact List.forall_mem_append.mpr ⟨normalChar_compactText part,
      fun c hc => normalChar_of_isInline (inline_markPieces c hc)⟩
  have row := inRow_rulePieces hw shown.name inside
  refine ⟨Place.after {} (spelling (rulePieces word.toList d.name.toList value)), ?_⟩
  rw [tokenize, spelled, normalize_eq_self normal]
  exact tokensFrom_row row {}

/-- The compact form of a declaration with a mark is read as the same declaration, but for white space in the value that the
text does not keep. -/
theorem MarkedText.Writes.rereads (h : w.Writes d) (source : tokenize css = front ++ (w.tokens w.ending ++ behind))
    (shown : w.IsShown d) {word : String} (hw : isIdentifier word.toList = true) :
    ∃ values, ComponentValue.listKinds values = tightKinds .comma (ComponentValue.listKinds d.value) ∧
      Stylesheet.ofText (word ++ compactBlock d.compact) =
        ⟨[.style ⟨1, [word], [{ d with value := values, line := 1 }]⟩], []⟩ := by
  obtain ⟨rest, row, ends, some⟩ := h.exists_row source shown.joined
  obtain ⟨stop, tokens⟩ := h.tokenize_compact source shown row ends some hw
  obtain ⟨p₁, p₂, p₃, p₄, p₅, p₆, p₇, placed', line⟩ := placed_rulePieces hw d.name.toList
    (tightened .comma ((listTokens w.value).map Token.piece))
  obtain ⟨ms, same, nested, sifts, first, visible, values⟩ := exists_reread h.nested (pieces_placed p₄ _)
  have cut : compactText (listTokens ms) = compactText (listTokens w.value) := by
    rw [same]
    exact compactFrom_cut row (pieces_placed p₄ _) fun _ => .inl rfl
  rw [placed', ← same, String.ofList_toList] at tokens
  simp only [List.cons_append, List.nil_append, List.append_assoc] at tokens
  let mark : Mark := ⟨[], ⟨.delim '!', p₅, ['!']⟩, [], ⟨.ident "important", p₆, "important".toList⟩⟩
  have written : mark.IsWritten := ⟨List.forall_mem_nil _, rfl, List.forall_mem_nil _, "important", rfl, Selector.toLower_eq_self_of_all (by decide)⟩
  have spelled : mark.IsSpelled := ⟨rfl, show '!' ∉ "important".toList by decide⟩
  have letters : word.toList ≠ [] := by
    intro none
    rw [none] at hw
    cases hw
  have within : ∀ m ∈ ms, m.kind? ≠ Option.some .semicolon := fun m hm => by
    obtain ⟨n, hn, same⟩ := sifts.alike m hm
    rw [same.1]
    exact h.within n hn
  have property : Token.line ⟨.ident d.name, p₂, d.name.toList⟩ = 1 := line
  refine ⟨ComponentValue.ofNodes ms, by rw [values, h.value], ?_⟩
  rw [Stylesheet.ofText, tokens]
  refine (ofTokens_marked rfl letters rfl rfl rfl rfl nested within first (visible h.ends) written spelled rfl stop).trans ?_
  rw [cut, ← h.text, property, String.ofList_toList, String.ofList_toList, h.important]
  rfl

end

/-! Whole style sheets. -/

/-- A declaration with a mark among those of a style sheet, and the same declaration without the mark. -/
structure IsMarkedIn (css : String) (ahead : List Declaration) (d : Declaration) (later : List Declaration) (w : MarkedText)
    (front behind : List Token) (d' : Declaration) : Prop where
  writes : w.Writes d
  source : tokenize css = front ++ (w.tokens w.ending ++ behind)
  unmarks : d.Unmarks d'
  /-- With white space in the place of the mark, the style sheet has the declaration without the mark. -/
  declarations : ∀ left, AreBlank left →
    (Stylesheet.ofTokens (front ++ (w.tokens left ++ behind))).declarations = ahead ++ d' :: later
  issues : ∀ left, AreBlank left →
    (Stylesheet.ofTokens (front ++ (w.tokens left ++ behind))).issues = (Stylesheet.ofText css).issues
  /-- So does every source with these tokens, wherever they stand in it, but for the lines. -/
  sources : ∀ left css', AreBlank left →
    (tokenize css').map Token.piece = (front ++ (w.tokens left ++ behind)).map Token.piece →
    (Stylesheet.ofText css').declarations.map (Declaration.moved fun _ => 0) =
      (ahead ++ d' :: later).map (Declaration.moved fun _ => 0)
  /-- The compact form is read as the declaration again, but for white space in the value that the text does not keep. -/
  compact : w.IsShown d → ∀ word : String, isIdentifier word.toList = true →
    ∃ values, ComponentValue.listKinds values = tightKinds .comma (ComponentValue.listKinds d.value) ∧
      Stylesheet.ofText (word ++ compactBlock d.compact) =
        ⟨[.style ⟨1, [word], [{ d with value := values, line := 1 }]⟩], []⟩

/-- Each declaration of a style sheet stands in its outline, and is important if it ends in a mark there and only then. The mark
is all that is left out of its value. Of its text, blanks at the end are left out as well. -/
theorem ofText_important {css : String} {ahead later : List Declaration} {d : Declaration}
    (kept : (Stylesheet.ofText css).declarations = ahead ++ d :: later) :
    ∃ (f : Frame) (c : Clause), IsOutline css (f.fill c) ∧ c.declaration? = some d ∧ (c.IsMarked ↔ d.important = true) ∧
      (d.important = true → ∃ w front behind d', listTokens c.nodes = w.tokens w.ending ∧
        IsMarkedIn css ahead d later w front behind d') := by
  obtain ⟨f, c, outline, known, other⟩ := exists_declared kept
  refine ⟨f, c, outline, known, Clause.isMarked_iff known, fun important => ?_⟩
  obtain ⟨w, front, behind, writes, written, source, unmarked⟩ := exists_unmarked outline known other important
  refine ⟨w, front, behind, declaration d.name d.line w.value.reverse, written, writes, source, writes.unmarks,
    fun left blank => (unmarked left blank).1, fun left blank => (unmarked left blank).2, fun left css' blank same => ?_,
    fun shown word hw => writes.rereads source shown hw⟩
  have some : tokenize css' ≠ [] := tokensFrom_ne_nil _ _
  rw [Stylesheet.ofText, Stylesheet.declarations_pieces some same, (unmarked left blank).1]

theorem ofText_important_spaced :
    ∃ d : Declaration, (Stylesheet.ofText "a\x7bb: c , d ! Important \x7d").declarations = [] ++ d :: [] ∧
      d.name = "b" ∧ d.text = "c,d" ∧ ∃ (f : Frame) (c : Clause), IsOutline "a\x7bb: c , d ! Important \x7d" (f.fill c) ∧
        c.declaration? = some d ∧ c.IsMarked ∧ ∃ w front behind d', listTokens c.nodes = w.tokens w.ending ∧
          IsMarkedIn "a\x7bb: c , d ! Important \x7d" [] d [] w front behind d' ∧ w.IsShown d := by
  have kept : (Stylesheet.ofText "a\x7bb: c , d ! Important \x7d").declarations.map (fun d => (d.name, d.text, d.important)) =
      [("b", "c,d", true)] := by decide +kernel
  obtain ⟨d, none, kept, same, rest⟩ := List.map_eq_cons_iff.mp kept
  obtain rfl := List.map_eq_nil_iff.mp rest
  obtain ⟨name, text, important⟩ : d.name = "b" ∧ d.text = "c,d" ∧ d.important = true := by simpa using same
  have kept : (Stylesheet.ofText "a\x7bb: c , d ! Important \x7d").declarations = [] ++ d :: [] := kept
  obtain ⟨f, c, outline, known, ends, marks⟩ := ofText_important kept
  obtain ⟨w, front, behind, d', written, marked⟩ := marks important
  have joined : SideBySide (tokenize "a\x7bb: c , d ! Important \x7d") := by
    unfold SideBySide
    decide +kernel
  have letters : IsName d.name.toList := by
    rw [name]
    exact .of_isIdentifier (by decide)
  have shown := marked.writes.isShown marked.source letters joined (by decide +kernel)
  exact ⟨d, kept, name, text, f, c, outline, known, ends.mpr important, w, front, behind, d', written, marked, shown⟩

/-- A white space character behind an escape is part of it, and is trimmed off the text all the same. -/
theorem ofText_important_escape :
    (Stylesheet.ofText "a\x7bb:c\\ !important\x7d").declarations.map (fun d => (d.text, d.important)) = [("c\\", true)] ∧
      (Stylesheet.ofText "a\x7bb:c\\ \x7d").declarations.map (fun d => (d.text, d.important)) = [("c\\ ", false)] ∧
      (Stylesheet.ofText (Stylesheet.ofText "a\x7bb:c\\ !important\x7d").compact).declarations.map
        (fun d => (d.text, d.important)) = [("c\\!important", false)] := by
  decide +kernel

end StyleAudit.Css
