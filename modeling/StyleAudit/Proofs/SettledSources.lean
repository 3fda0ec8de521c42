import StyleAudit.Proofs.CompactAgain
import StyleAudit.Proofs.RestatedRules
import StyleAudit.Proofs.UnclosedBlocks
/-!
Sources whose compact form is read as the same style sheet. Each block is closed and each at-rule ends in its semicolon, no comment
stands within a selector, a prelude or a value, and what is kept of the source is written as it is read.
-/
namespace StyleAudit.Css

open Clause (AllFit listNodes listRules listAll)
open Node (listTokens listTokens_append)

/-- In closed blocks nothing is left to the end of the source. -/
theorem Node.AreNested.ofClosed {around : Option Bracket} {last : Bool} {ns : List Node} (h : AreNested around last ns)
    (closed : AreClosed ns) : AreNested around false ns := by
  induction ns with
  | nil => trivial
  | cons n ns ih =>
      refine ⟨?_, ih h.2 closed.2⟩
      cases n with
      | leaf t => exact h.1
      | block opening opener contents closer =>
          obtain ⟨⟨⟨t, rfl, -⟩, -⟩, -⟩ := closed
          exact ⟨h.1.1, h.1.2.1, h.1.2.2.1, fun none => by cases none⟩

/-! What stands behind the parts of rules. -/

/-- Tokens with a semicolon or a curly bracket behind them. -/
def IsFollowed (source ts : List Token) : Prop :=
  ts = [] ∨ ∃ t behind, ts ++ t :: behind <:+: source ∧ t.kind ∈ [TokenKind.semicolon, .opening .curly, .closing .curly]

theorem isKept_of_followed {css : String} {ns : List Node} (followed : IsFollowed (tokenize css) (listTokens ns))
    (joined : SideBySide (listTokens ns)) (plain : ∀ t ∈ listTokens ns, t.isPlain = true) : IsKept ns := by
  rcases followed with none | ⟨t, behind, ⟨front, after, source⟩, stop⟩
  · have ends : EndsText [';'] := by
      rintro c ⟨⟩
      decide
    refine ⟨⟨[';'], ?_, ends, by simp⟩, plain, ?_⟩
    · rw [none]
      trivial
    · rw [none]
      exact List.forall_mem_nil _
  · have source : tokenize css = front ++ (listTokens ns ++ t :: (behind ++ after)) := by simp [← source]
    have stops : t.kind ≠ .endOfSource ∧ t.kind ≠ .whitespace ∧ (∀ value, t.kind ≠ .string value) ∧ t.kind ≠ .badString := by
      simp only [List.mem_cons, List.not_mem_nil, or_false] at stop
      rcases stop with kind | kind | kind <;> simp [kind]
    obtain ⟨inside, visible, string, bad⟩ := stops
    have some : behind ++ after ≠ [] := by
      intro none
      rw [none, tokenize_eq, ← List.append_assoc] at source
      obtain ⟨-, last⟩ := List.append_inj' source rfl
      exact inside (congrArg Token.kind (List.cons.inj last).1).symm
    obtain ⟨place, text, value⟩ := exists_tokensFrom source (by simp)
    obtain ⟨_, rest, place, -, -, -, row, tokens⟩ := inRow_sideBySide value (by simp) joined
    have tokens : tokensFrom place rest = [] ++ t :: (behind ++ after) := tokens
    refine ⟨⟨rest, row, endsText_of_tokens tokens some (List.forall_mem_nil _) visible string bad, ?_⟩, plain, fun u hu => ?_⟩
    · rintro rfl
      rw [tokensFrom_nil] at tokens
      exact inside (congrArg Token.kind (List.cons.inj tokens).1).symm
    · have part : u ∈ tokenize css := by
        rw [source]
        simp [hu]
      exact normalChar_lexeme part

namespace Clause

variable {source : List Token}

/-- Something that does not go on to the end of the source has one of these tokens behind its part. -/
def AllFollowed (source : List Token) (cs : List Clause) : Prop := ∀ c ∈ cs, IsFollowed source (listTokens c.parts)

/-- A list of declarations has the bracket of its block behind it. -/
def EndsBlock (level : Level) (tail : List Token) : Prop :=
  level = .declarations → ∃ t rest, tail = t :: rest ∧ t.kind = .closing .curly

theorem isFollowed_value {value behind : List Node} {tail : List Token} (ends : UpToSemicolon value behind)
    (last : ∃ t rest, tail = t :: rest ∧ t.kind = .closing .curly)
    (part : listTokens value ++ (listTokens behind ++ tail) <:+: source) : IsFollowed source (listTokens value) := by
  cases behind with
  | nil =>
      obtain ⟨t, rest, rfl, kind⟩ := last
      exact .inr ⟨t, rest, part, by simp [kind]⟩
  | cons n behind =>
      obtain ⟨t, rfl, kind⟩ := leaf_of_kind? (ends.2 n rfl)
      exact .inr ⟨t, listTokens behind ++ tail, part, by simp [kind]⟩

/-- Behind what stands in front of a closed block there is the bracket that opens it, and behind its contents the one that closes
it. -/
theorem followed_block {around : Option Bracket} {head contents : List Node} {opener : Token} {closer : Option Token}
    {more : List Token} (nested : Node.AreNested around false (head ++ [.block (.bracket .curly) opener contents closer]))
    (part : listTokens (head ++ [.block (.bracket .curly) opener contents closer]) ++ more <:+: source) :
    IsFollowed source (listTokens head) ∧ ∃ t, t.kind = .closing .curly ∧ listTokens contents ++ t :: more <:+: source := by
  obtain ⟨-, ⟨opens, -, closes, ends⟩, -⟩ := Node.areNested_append.mp nested
  cases closer with
  | none => exact absurd (ends rfl) Bool.false_ne_true
  | some t =>
      have kind : opener.kind = .opening .curly := Opening.kind_of_opens opens
      have tokens : listTokens (head ++ [.block (.bracket .curly) opener contents (some t)]) ++ more =
          listTokens head ++ opener :: (listTokens contents ++ t :: more) := by
        simp [listTokens_append, listTokens, Node.tokens]
      rw [tokens] at part
      refine ⟨.inr ⟨opener, _, part, by simp [kind]⟩, t, closes t rfl, ?_⟩
      exact ((List.suffix_cons opener _).trans (List.suffix_append _ _)).isInfix.trans part

mutual
theorem followed_all : ∀ (c : Clause) {around : Option Bracket} {level : Level} {behind : List Node} {tail : List Token},
    c.Fits level behind → Node.AreNested around false c.nodes → EndsBlock level tail →
      (∀ keyword word prelude, .statement keyword word prelude none ∉ c.all) →
        listTokens c.nodes ++ (listTokens behind ++ tail) <:+: source → AllFollowed source c.all
  | .style head opener body closer, _, _, _, _, fits, nested, _, ended, part => by
      obtain ⟨front, inside⟩ := closed_contents nested
      obtain ⟨here, t, kind, within⟩ := followed_block nested part
      exact List.forall_mem_cons.mpr ⟨here, followed_listAll body fits.2.2 inside (fun _ => ⟨t, _, rfl, kind⟩)
        (fun keyword word prelude mem => ended keyword word prelude (List.mem_cons_of_mem _ mem)) within⟩
  | .block keyword word prelude opener body closer, _, _, _, _, fits, nested, _, ended, part => by
      obtain ⟨front, inside⟩ := closed_contents nested.2
      obtain ⟨here, t, kind, within⟩ := followed_block nested.2 ((List.suffix_cons keyword _).isInfix.trans part)
      exact List.forall_mem_cons.mpr ⟨here, followed_listAll body fits.2.2 inside (fun _ => ⟨t, _, rfl, kind⟩)
        (fun keyword word prelude mem => ended keyword word prelude (List.mem_cons_of_mem _ mem)) within⟩
  | .statement keyword word prelude none, _, _, _, _, _, _, _, ended, _ => absurd (mem_all _) (ended keyword word prelude)
  | .statement keyword word prelude (some t), _, _, behind, tail, fits, _, _, _, part => by
      refine List.forall_mem_singleton.mpr (.inr ⟨t, listTokens behind ++ tail, ?_, by simp [fits.2.2.1 t rfl]⟩)
      have tokens : listTokens (Clause.statement keyword word prelude (some t)).nodes ++ (listTokens behind ++ tail) =
          keyword :: (listTokens prelude ++ t :: (listTokens behind ++ tail)) := by
        simp [nodes, listTokens_append, listTokens, Node.tokens]
      rw [tokens] at part
      exact (List.suffix_cons keyword _).isInfix.trans part
  | .declaration property name space colon blank value, _, _, behind, tail, fits, _, ends, _, part => by
      refine List.forall_mem_singleton.mpr (isFollowed_value fits.2.2.2.2.2.2 (ends fits.1) ?_)
      have tokens : listTokens (Clause.declaration property name space colon blank value).nodes ++ (listTokens behind ++ tail) =
          (property :: (listTokens space ++ colon :: listTokens blank)) ++ (listTokens value ++ (listTokens behind ++ tail)) := by
        simp [nodes, listTokens_append, listTokens, Node.tokens]
      rw [tokens] at part
      exact (List.suffix_append _ _).isInfix.trans part
  | .idle .., _, _, _, _, _, _, _, _, _ | .stray .., _, _, _, _, _, _, _, _, _ | .bare .., _, _, _, _, _, _, _, _, _
  | .noColon .., _, _, _, _, _, _, _, _, _ | .unexpected .., _, _, _, _, _, _, _, _, _ => List.forall_mem_singleton.mpr (.inl rfl)

theorem followed_listAll : ∀ (cs : List Clause) {around : Option Bracket} {level : Level} {tail : List Token},
    AllFit level cs → Node.AreNested around false (listNodes cs) → EndsBlock level tail →
      (∀ keyword word prelude, .statement keyword word prelude none ∉ listAll cs) →
        listTokens (listNodes cs) ++ tail <:+: source → AllFollowed source (listAll cs)
  | [], _, _, _, _, _, _, _, _ => List.forall_mem_nil _
  | c :: cs, _, _, _, fits, nested, ends, ended, part => by
      obtain ⟨first, later⟩ := Node.areNested_append.mp nested
      rw [listNodes, listTokens_append, List.append_assoc] at part
      refine List.forall_mem_append.mpr ⟨?_, ?_⟩
      · exact followed_all c fits.1 first.anywhere ends
          (fun keyword word prelude mem => ended keyword word prelude (List.mem_append_left _ mem)) part
      · exact followed_listAll cs fits.2 later ends
          (fun keyword word prelude mem => ended keyword word prelude (List.mem_append_right _ mem))
          ((List.suffix_append _ _).isInfix.trans part)
end

end Clause

/-! Settled sources. -/

/-- An outline of a source in which all is closed and nothing is set apart by comments alone. -/
structure IsSettled (css : String) (cs : List Clause) : Prop where
  outline : IsOutline css cs
  closed : Node.AreClosed (sourceNodes css)
  /-- Each at-rule without a block ends in a semicolon. -/
  ended : ∀ keyword word prelude, .statement keyword word prelude none ∉ listAll cs
  /-- No comment stands within a selector, a prelude or a value. -/
  joined : ∀ c ∈ listAll cs, SideBySide (listTokens c.parts)
  plain : ∀ c ∈ listAll cs, ∀ t ∈ listTokens c.parts, t.isPlain = true

theorem IsSettled.nested {css : String} {cs : List Clause} (h : IsSettled css cs) : Node.AreNested none false (listNodes cs) := by
  rw [h.outline.nodes]
  exact (areNested_sourceNodes css).ofClosed h.closed

theorem IsSettled.kept {css : String} {cs : List Clause} (h : IsSettled css cs) : ∀ c ∈ listAll cs, IsKept c.parts := by
  have part : listTokens (listNodes cs) ++ [] <:+: tokenize css := by
    rw [List.append_nil, h.outline.nodes, tokenize_eq]
    exact (List.prefix_append _ _).isInfix
  have followed := Clause.followed_listAll cs h.outline.fits h.nested (fun other => by cases other) h.ended part
  exact fun c hc => isKept_of_followed (followed c hc) (h.joined c hc) (h.plain c hc)

/-- The rules of a text that is spelled by an outline are those of the outline, but for the lines. -/
theorem ofText_spells {text : String} {cs : List Clause} (fits : AllFit (.rules false) cs)
    (spells : Spells none (listNodes cs) text.toList Anywhere) :
    Rule.listShown (Stylesheet.ofText text).rules = Rule.listShown (listRules cs) := by
  let us : List Token := listTokens (listNodes cs) ++ [⟨.endOfSource, {}, []⟩]
  have row := tokensFrom_row (spells.row [] trivial) {}
  have pieces : (tokenize text).map Token.piece = us.map Token.piece := by
    rw [tokenize, normalize_eq_self spells.normal, tokens, ← spells.spelled, row, List.map_append, pieces_placed, List.map_append]
    rfl
  have same := Stylesheet.moved_pieces (tokensFrom_ne_nil _ _) pieces
  rw [ofTokens_outline fits spells.nested.anywhere] at same
  have rules := congrArg (Rule.listShown ∘ Stylesheet.rules) same
  simp only [Function.comp_apply, Stylesheet.moved, Rule.listShown_moved] at rules
  exact rules

/-- The compact form of a settled source is read as the same rules, but for what it does not show. -/
theorem ofText_compact_shown {css : String} {cs : List Clause} (h : IsSettled css cs) (silent : (Stylesheet.ofText css).issues = [])
    (writable : Rule.AllWritable (Stylesheet.ofText css).rules) :
    Rule.listShown (Stylesheet.ofText (Stylesheet.ofText css).compact).rules = Rule.listShown (Stylesheet.ofText css).rules := by
  have read := h.outline.ofText
  rw [Stylesheet.compact]
  rw [read] at silent writable ⊢
  obtain ⟨cs', restated⟩ := exists_restatedRules (fun _ => true) cs h.outline.fits h.nested silent h.kept fun r hr =>
    Rule.allWritable_iff.mp writable r (List.mem_of_mem_filter hr)
  rw [List.filter_true] at restated
  rw [ofText_spells restated.fits restated.spells, restated.shown]

/-- The compact form of a settled source is its own compact form. -/
theorem compact_ofText_settled {css : String} {cs : List Clause} (h : IsSettled css cs)
    (silent : (Stylesheet.ofText css).issues = []) (writable : Rule.AllWritable (Stylesheet.ofText css).rules) :
    (Stylesheet.ofText (Stylesheet.ofText css).compact).compact = (Stylesheet.ofText css).compact := by
  rw [Stylesheet.compact, ← Rule.compactList_shown, ofText_compact_shown h silent writable, Rule.compactList_shown, Stylesheet.compact]

theorem compact_ofText_settled_group :
    let css := "@media x\n\x7b/**/a > b , c\x7bd: e f ! important\x7d\x7d"
    let rule := Clause.style
      [.leaf ⟨.ident "a", ⟨14, 2⟩, ['a']⟩, .leaf ⟨.whitespace, ⟨15, 2⟩, [' ']⟩, .leaf ⟨.delim '>', ⟨16, 2⟩, ['>']⟩,
        .leaf ⟨.whitespace, ⟨17, 2⟩, [' ']⟩, .leaf ⟨.ident "b", ⟨18, 2⟩, ['b']⟩, .leaf ⟨.whitespace, ⟨19, 2⟩, [' ']⟩,
        .leaf ⟨.comma, ⟨20, 2⟩, [',']⟩, .leaf ⟨.whitespace, ⟨21, 2⟩, [' ']⟩, .leaf ⟨.ident "c", ⟨22, 2⟩, ['c']⟩]
      ⟨.opening .curly, ⟨23, 2⟩, ['\x7b']⟩
      [.declaration ⟨.ident "d", ⟨24, 2⟩, ['d']⟩ "d" [] ⟨.colon, ⟨25, 2⟩, [':']⟩ [.leaf ⟨.whitespace, ⟨26, 2⟩, [' ']⟩]
        [.leaf ⟨.ident "e", ⟨27, 2⟩, ['e']⟩, .leaf ⟨.whitespace, ⟨28, 2⟩, [' ']⟩, .leaf ⟨.ident "f", ⟨29, 2⟩, ['f']⟩,
          .leaf ⟨.whitespace, ⟨30, 2⟩, [' ']⟩, .leaf ⟨.delim '!', ⟨31, 2⟩, ['!']⟩, .leaf ⟨.whitespace, ⟨32, 2⟩, [' ']⟩,
          .leaf ⟨.ident "important", ⟨33, 2⟩, "important".toList⟩]]
      (some ⟨.closing .curly, ⟨42, 2⟩, ['\x7d']⟩)
    let cs := [Clause.block ⟨.atKeyword "media", ⟨0, 1⟩, "@media".toList⟩ "media"
      [.leaf ⟨.whitespace, ⟨6, 1⟩, [' ']⟩, .leaf ⟨.ident "x", ⟨7, 1⟩, ['x']⟩, .leaf ⟨.whitespace, ⟨8, 1⟩, ['\n']⟩]
      ⟨.opening .curly, ⟨9, 2⟩, ['\x7b']⟩ [rule] (some ⟨.closing .curly, ⟨43, 2⟩, ['\x7d']⟩)]
    IsSettled css cs ∧ (Stylesheet.ofText css).issues = [] ∧ Rule.AllWritable (Stylesheet.ofText css).rules ∧
      (Stylesheet.ofText css).compact = "@media x\x7ba > b,c\x7bd:e f!important\x7d\x7d" ∧
      (Stylesheet.ofText (Stylesheet.ofText css).compact).compact = (Stylesheet.ofText css).compact := by
  intro css rule cs
  have tokens : tokenize css = listTokens (listNodes cs) ++ [⟨.endOfSource, ⟨44, 2⟩, []⟩] := by decide +kernel
  have lower : "media".toLower = "media" := Selector.toLower_eq_self_of_all (by decide)
  have kind : BlockKind.ofName "media" = .rules := by decide
  have fits : AllFit (.rules false) cs := by
    simp [cs, rule, AllFit, Clause.Fits, listNodes, Level.ofName, lower, kind, Level.idle, Level.BeginsStyle, Clause.Blank,
      Clause.UpToSemicolon, InPrelude, Node.kind?, Node.isCurly]
  have outline : IsOutline css cs := by
    refine ⟨fits, ?_⟩
    rw [sourceNodes, tokens]
    rfl
  have closed : Node.AreClosed (sourceNodes css) := by
    rw [← outline.nodes]
    simp [cs, rule, listNodes, Clause.nodes, Node.AreClosed, Node.IsClosedThroughout, Opening.closes]
  have joined : ∀ c ∈ listAll cs, SideBySide (listTokens c.parts) := by
    unfold SideBySide
    decide +kernel
  have settled : IsSettled css cs := ⟨outline, closed, by simp [cs, rule, listAll, Clause.all], joined, by decide +kernel⟩
  have silent : (Stylesheet.ofText css).issues = [] := by decide +kernel
  have writable : Rule.AllWritable (Stylesheet.ofText css).rules := by
    have name (line : Nat) (ns : List Node) : (declaration "d" line ns).name = "d" := (declaration_of "d" line ns).1
    have names : IsName "media".toList ∧ IsName "d".toList := ⟨.of_isIdentifier (by decide), .of_isIdentifier (by decide)⟩
    rw [outline.ofText]
    simpa [cs, rule, listRules, Clause.rule?, lower, kind, Rule.AllWritable, Rule.IsWritable, StyleRule.IsWritable,
      Clause.declaration?, name] using names
  exact ⟨settled, silent, writable, by decide +kernel, compact_ofText_settled settled silent writable⟩

end StyleAudit.Css
