import StyleAudit.Proofs.CompactReading
import StyleAudit.Proofs.TightenedParts
/-!
Nodes for compact texts. A text that is kept of a source is spelled by the nodes it was kept of, with their white space cut down:
these are read from it again in front of whatever the compact form puts behind it.
-/
namespace StyleAudit.Css

open Node (listTokens listTokens_append)
open Selector (StopsAt isIdentifier)

/-! Nodes for a text. -/

/-- Nodes that a text is read as, in front of what stops it, with just the characters of the text in them. -/
structure Spells (around : Option Bracket) (ns : List Node) (text : List Char) (stops : List Char → Prop) : Prop where
  nested : Node.AreNested around false ns
  row : ∀ rest, stops rest → InRow ((listTokens ns).map Token.piece) rest
  spelled : spelling ((listTokens ns).map Token.piece) = text
  normal : ∀ c ∈ text, normalChar c = c

/-- A token that is a node by itself, wherever it stands. -/
def TokenKind.standsAlone : TokenKind → Bool
  | .opening _ | .function _ | .closing _ | .endOfSource => false
  | _ => true

theorem isNested_alone {t : Token} (h : t.kind.standsAlone = true) (around : Option Bracket) (last : Bool) :
    (Node.leaf t).IsNested around last := by
  obtain ⟨kind, place, lexeme⟩ := t
  cases kind <;> simp_all [TokenKind.standsAlone, Node.IsNested, TokenKind.opens?]

/-- A piece as a node, at no place in particular. -/
def Piece.leaf (p : Piece) : Node := .leaf ⟨p.kind, {}, p.lexeme⟩

/-- A block in curly brackets, at no place in particular. -/
def curlyBlock (contents : List Node) : Node :=
  .block (.bracket .curly) ⟨.opening .curly, {}, ['\x7b']⟩ contents (some ⟨.closing .curly, {}, ['\x7d']⟩)

namespace Spells

variable {around : Option Bracket} {ns ms : List Node} {text other : List Char} {stops stops' : List Char → Prop}

theorem nil : Spells around [] [] stops := ⟨trivial, fun _ _ => trivial, rfl, List.forall_mem_nil _⟩

theorem append (h : Spells around ns text stops) (h' : Spells around ms other stops')
    (hs : ∀ rest, stops' rest → stops (other ++ rest)) : Spells around (ns ++ ms) (text ++ other) stops' where
  nested := Node.areNested_append.mpr ⟨h.nested, h'.nested⟩
  row rest hr := by
    rw [listTokens_append, List.map_append, inRow_append, h'.spelled]
    exact ⟨h.row _ (hs rest hr), h'.row rest hr⟩
  spelled := by rw [listTokens_append, List.map_append, spelling_append, h.spelled, h'.spelled]
  normal := List.forall_mem_append.mpr ⟨h.normal, h'.normal⟩

theorem leaf {p : Piece} (alone : p.kind.standsAlone = true) (inline : ∀ c ∈ p.lexeme, isInline c = true)
    (read : ∀ rest, stops rest → p.ReadBefore rest) : Spells around [p.leaf] p.lexeme stops where
  nested := ⟨isNested_alone alone _ _, trivial⟩
  row rest hr := ⟨(read rest hr).isRead, trivial⟩
  spelled := List.append_nil _
  normal c hc := normalChar_of_isInline (inline c hc)

theorem mark {kind : TokenKind} {c : Char} (h : punctuation? c = some kind) (alone : kind.standsAlone = true) :
    Spells around [(Piece.mark kind c).leaf] [c] Anywhere :=
  .leaf alone (ReadBefore.mark h []).inline fun rest _ => ReadBefore.mark h rest

theorem curly (h : Spells (some .curly) ns text stops) (hs : ∀ rest, stops ('\x7d' :: rest)) :
    Spells around [curlyBlock ns] ('\x7b' :: (text ++ ['\x7d'])) Anywhere where
  nested := ⟨⟨rfl, h.nested, fun _ same => Option.some.inj same ▸ rfl, fun none => by cases none⟩, trivial⟩
  row rest _ := by
    have opening : (⟨.opening .curly, ['\x7b']⟩ : Piece).IsRead (text ++ ('\x7d' :: rest)) := (ReadBefore.mark rfl _).isRead
    have closing : (⟨.closing .curly, ['\x7d']⟩ : Piece).IsRead rest := (ReadBefore.mark rfl _).isRead
    simp only [curlyBlock, listTokens, Node.tokens, Option.toList_some, List.append_nil, List.map_cons, List.map_append,
      List.map_nil, InRow, inRow_append, spelling_append, h.spelled]
    exact ⟨by simpa [spelling, Token.piece] using opening, h.row _ (hs rest), by simpa [spelling, Token.piece] using closing,
      trivial⟩
  spelled := by
    simp only [curlyBlock, listTokens, Node.tokens, Option.toList_some, List.append_nil, List.map_cons, List.map_append,
      List.map_nil, spelling_cons, spelling_append, h.spelled]
    simp [spelling, Token.piece]
  normal := by
    simp only [List.forall_mem_cons, List.forall_mem_append]
    exact ⟨rfl, h.normal, rfl, List.forall_mem_nil _⟩

end Spells

/-- Nodes of known tokens, whatever they are put into. -/
theorem Nests.areNested {ts : List Token} {ns : List Node} (h : Nests ts ns) (inside : ∀ t ∈ ts, t.kind ≠ .endOfSource)
    (around : Option Bracket) : Node.AreNested around false ns := by
  have push {s : Nesting} (nested : s.IsNested) : (ts.foldl Nesting.push s).IsNested := by
    clear h
    induction ts generalizing s with
    | nil => exact nested
    | cons t ts ih =>
        exact ih (fun u hu => inside u (List.mem_cons_of_mem t hu)) (nested.push (inside t List.mem_cons_self))
  cases around with
  | none =>
      have nested := (push (s := ⟨[], []⟩) ⟨trivial, trivial⟩).nodes
      rw [h, List.append_nil, List.reverse_reverse] at nested
      exact nested
  | some b =>
      have nested := (push (s := ⟨[], [⟨.bracket b, ⟨.opening b, {}, []⟩, []⟩]⟩) ⟨trivial, rfl, trivial, trivial⟩).nodes
      rw [h, List.append_nil, List.reverse_reverse] at nested
      exact nested

theorem Apart.inRow {ps : List Piece} {rest : List Char} (h : Apart ps rest) : InRow ps rest := by
  induction ps with
  | nil => trivial
  | cons p ps ih => exact ⟨h.1.isRead, ih h.2⟩

theorem Apart.inside {ps : List Piece} {rest : List Char} (h : Apart ps rest) : ∀ p ∈ ps, p.kind ≠ .endOfSource := by
  intro p hp
  obtain ⟨behind, read⟩ := h.inRow.isRead hp
  obtain ⟨c, more, -, value, -⟩ := read.token
  exact value ▸ token_ne_endOfSource c _

/-- What is written on a line is spelled by nodes of its form. -/
theorem Written.exists_spells {text : List Char} {stops : List Char → Prop} {form : List Node → Prop}
    (h : Written text stops form) {rest : List Char} (some : stops rest) (around : Option Bracket) :
    ∃ ns, Spells around ns text stops ∧ form ns := by
  obtain ⟨pieces, rfl, apart, nests⟩ := h
  let ts : List Token := pieces.map fun p => ⟨p.kind, ⟨0, 1⟩, p.lexeme⟩
  have carries : Carries ts pieces := by
    rw [Carries, List.map_map]
    rfl
  have same : ts.map Token.piece = pieces := by
    rw [List.map_map]
    exact List.map_id pieces
  obtain ⟨ns, nested, known⟩ := nests ts carries
  have tokens : listTokens ns = ts := by rw [← ofTokens_nests nested, listTokens_ofTokens]
  have inside : ∀ t ∈ ts, t.kind ≠ .endOfSource := carries.forall_kind (· ≠ .endOfSource) (apart rest some).inside
  refine ⟨ns, ⟨nested.areNested inside around, fun rest hr => ?_, ?_, fun c hc => ?_⟩, known⟩
  · rw [tokens, same]
    exact (apart rest hr).inRow
  · rw [tokens, same]
  · exact normalChar_of_isInline ((apart rest some).inline c hc)

/-! Parts of rules. -/

/-- Nodes whose text is read as their tokens again: they stand side by side in a source, and their tokens are plain. -/
structure IsKept (ns : List Node) : Prop where
  row : ∃ rest, InRow ((listTokens ns).map Token.piece) rest ∧ EndsText rest ∧ rest ≠ []
  plain : ∀ t ∈ listTokens ns, t.isPlain = true
  normal : ∀ t ∈ listTokens ns, ∀ c ∈ t.lexeme, normalChar c = c

theorem StartsMark.wordEnd {rest : List Char} (h : StartsMark rest) : WordEnd rest := by
  obtain ⟨c, more, rfl, sign | ⟨rfl, -⟩⟩ := h
  · simp only [List.mem_cons, List.not_mem_nil, or_false] at sign
    rcases sign with rfl | rfl | rfl <;> exact StopsAt.cons (by decide)
  · exact StopsAt.cons (by decide)

theorem startsMark_of_mem {c : Char} (h : c ∈ [';', '\x7b', '\x7d']) (rest : List Char) : StartsMark (c :: rest) :=
  ⟨c, rest, rfl, .inl h⟩

section
variable {around : Option Bracket} {ns ms : List Node} (h : IsKept ns)
include h

theorem IsKept.spells (cut : Tightens around ns ms) : Spells around ms (compactText (listTokens ns)) StartsMark := by
  obtain ⟨rest, row, ends, some⟩ := h.row
  have distinct := isDistinct_of_plain h.plain
  have text := compactText_tightened row distinct
  refine ⟨cut.nested, fun after mark => ?_, by rw [cut.tokens, text], fun c hc => ?_⟩
  · rw [cut.tokens]
    exact inRow_tightened row ends (.inr ⟨mark, some⟩) (distinct.sound fun t ht => (Token.isPlain_kind (h.plain t ht)).1) .comma
  · rcases mem_compactFrom hc with rfl | ⟨t, ht, inside⟩
    · rfl
    · exact h.normal t ht c inside

/-- Nodes in front of tokens that end no text are kept if all are. -/
theorem IsKept.ahead {front : List Node} {tail : List Token} (same : ns = front ++ tail.map Node.leaf)
    (ends : ∀ rest, InRow (tail.map Token.piece) rest → EndsText rest → EndsText (spelling (tail.map Token.piece) ++ rest)) :
    IsKept front := by
  subst same
  obtain ⟨rest, row, behind, some⟩ := h.row
  have tokens : listTokens (front ++ tail.map Node.leaf) = listTokens front ++ tail := by
    rw [listTokens_append, listTokens_leaves]
  have part : ∀ t ∈ listTokens front, t ∈ listTokens (front ++ tail.map Node.leaf) := fun t ht => by
    rw [tokens]
    exact List.mem_append_left tail ht
  rw [tokens, List.map_append, inRow_append] at row
  exact ⟨⟨_, row.1, ends rest row.2 behind, List.append_ne_nil_of_right_ne_nil _ some⟩, fun t ht => h.plain t (part t ht),
    fun t ht => h.normal t (part t ht)⟩

end

/-! Values. -/

/-- A text ends in front of white space if it ends behind it. -/
theorem endsText_blank {ts : List Token} {rest : List Char} (h : AreBlank ts) (row : InRow (ts.map Token.piece) rest)
    (ends : EndsText rest) : EndsText (spelling (ts.map Token.piece) ++ rest) := by
  induction ts with
  | nil => exact ends
  | cons t ts ih =>
      obtain ⟨skipped, visible⟩ := row.1.blank (h t List.mem_cons_self)
      have later := ih (fun u hu => h u (List.mem_cons_of_mem t hu)) row.2
      rw [EndsText, dropWhile_of_startsSpace visible] at later
      rw [List.map_cons, spelling_cons, List.append_assoc, EndsText, skipped]
      exact later

/-- A text ends in front of a mark. -/
theorem Mark.IsWritten.endsText {m : Mark} (h : m.IsWritten) {tail : List Token} {rest : List Char}
    (row : InRow ((m.tokens ++ tail).map Token.piece) rest) : EndsText (spelling ((m.tokens ++ tail).map Token.piece) ++ rest) := by
  have split : m.tokens ++ tail = m.before ++ m.bang :: (m.gap ++ m.word :: tail) := by simp [tokens]
  rw [split, List.map_append, inRow_append, List.map_cons] at row
  have bang := row.2.1.endsText (by simp [Token.piece, h.bang]) (by simp [Token.piece, h.bang]) (by simp [Token.piece, h.bang])
    (spelling ((m.gap ++ m.word :: tail).map Token.piece) ++ rest)
  rw [split, List.map_append, spelling_append, List.append_assoc, List.map_cons, spelling_cons, List.append_assoc]
  rw [spelling_cons, List.append_assoc] at row
  exact endsText_blank h.before row.1 bang

/-- The mark of a compact declaration. -/
def compactMark : Mark := ⟨[], ⟨.delim '!', {}, ['!']⟩, [], ⟨.ident "important", {}, "important".toList⟩⟩

theorem compactMark_written : compactMark.IsWritten :=
  ⟨List.forall_mem_nil _, rfl, List.forall_mem_nil _, "important", rfl, Selector.toLower_eq_self_of_all (by decide)⟩

theorem compactMark_spelled : compactMark.IsSpelled := ⟨rfl, show '!' ∉ "important".toList by decide⟩

theorem spells_compactMark (around : Option Bracket) :
    Spells around ((compactMark.tokens ++ []).map Node.leaf) "!important".toList StartsMark := by
  have word : isIdentifier "important".toList = true := by decide
  have inline : ∀ c ∈ "important".toList, isInline c = true := List.all_eq_true.mp (by decide)
  have bang : Spells around [Piece.bang.leaf] ['!'] Anywhere :=
    .leaf rfl (ReadBefore.bang []).inline fun rest _ => ReadBefore.bang rest
  have name : Spells around [(Piece.word "important".toList).leaf] "important".toList StartsMark :=
    .leaf rfl inline fun rest hr => ReadBefore.word word hr.wordEnd
  exact bang.append name fun _ _ => trivial

theorem Tightens.apart {around : Option Bracket} {ns ms : List Node} (cut : Tightens around ns ms)
    (within : ∀ n ∈ ns, n.kind? ≠ some .semicolon) : ∀ m ∈ ms, m.kind? ≠ some .semicolon := by
  intro m hm
  obtain ⟨n, hn, same, -⟩ := cut.sifts.alike m hm
  rw [same]
  exact within n hn

/-- Nodes that are read as the value of a declaration, spelled as in its compact form. -/
structure Restated (around : Option Bracket) (d : Declaration) (ns : List Node) : Prop where
  spells : Spells around ns (d.text ++ if d.important then "!important" else "").toList StartsMark
  within : ∀ n ∈ ns, n.kind? ≠ some .semicolon
  first : ∀ n ∈ ns.head?, n.kind? ≠ some .whitespace
  shown : ∀ line, (declaration d.name line ns.reverse).shown = d.shown

section
variable {around : Option Bracket} {front ms : List Node} (name : String) (line : Nat) (kept : IsKept front)
  (cut : Tightens around front ms) (ends : EndsVisibly front) (within : ∀ n ∈ front, n.kind? ≠ some .semicolon)
include kept cut ends within

theorem restated_unmarked (none : beforeImportant (ComponentValue.ofNodes front.reverse) = none) :
    Restated around (declaration name line front.reverse) ms := by
  obtain ⟨rest, row, -⟩ := kept.row
  have shown := fun line' => cut.declaration row ends name line line' none
  have plain := declaration_unmarked name line ends none
  rw [plain] at shown ⊢
  have spells := kept.spells cut
  exact ⟨by simpa using spells, cut.apart within, cut.first, shown⟩

theorem restated_marked {m : Mark} {tail : List Token} (written : m.IsWritten) (spelled : m.IsSpelled) (blank : AreBlank tail)
    (nested : Node.AreNested around false front) :
    Restated around (declaration name line (front ++ (m.tokens ++ tail).map Node.leaf).reverse)
      (ms ++ (compactMark.tokens ++ []).map Node.leaf) := by
  obtain ⟨rest, row, -⟩ := kept.row
  have shown := fun line' => cut.marked row ends name line line' written spelled blank compactMark_written compactMark_spelled
    (List.forall_mem_nil _)
  have trimmed : Text.trimEnd (compactText (listTokens front)) = compactText (listTokens front) :=
    trimEnd_compactText ((endsVisibly_iff nested).mp ends) kept.plain fun t ht =>
      (row.isRead (List.mem_map_of_mem ht)).elim fun _ read => read.nonempty
  have plain := declaration_marked name line written spelled blank ends
  rw [plain] at shown ⊢
  have bang (rest : List Char) : StartsMark ("!important".toList ++ rest) :=
    ⟨'!', "important".toList ++ rest, rfl, .inr ⟨rfl, fun dashes => by cases (List.cons_prefix_cons.mp dashes).1⟩⟩
  have spells := (kept.spells cut).append (spells_compactMark around) fun rest _ => bang rest
  refine ⟨by simpa [trimmed] using spells, ?_, ?_, shown⟩
  · exact List.forall_mem_append.mpr ⟨cut.apart within, (compactMark_written.leaves around false).2⟩
  · cases ms with
    | nil =>
        rintro _ ⟨⟩ same
        cases same
    | cons m ms => exact cut.first

end

/-- A value in its compact form. -/
theorem exists_restated {around : Option Bracket} {value : List Node} (kept : IsKept value)
    (nested : Node.AreNested around false value) (within : ∀ n ∈ value, n.kind? ≠ some .semicolon) (name : String) (line : Nat) :
    ∃ ns, Restated around (declaration name line value.reverse) ns := by
  cases marked : beforeImportant (ComponentValue.ofNodes value.reverse) with
  | none =>
      obtain ⟨blank, front, split, white, visible, -⟩ := exists_ahead value.reverse
      obtain rfl : value = front.reverse ++ blank.reverse.map Node.leaf := by
        rw [← List.reverse_inj, split, List.reverse_append, List.map_reverse, List.reverse_reverse, List.reverse_reverse]
      have ends : EndsVisibly front.reverse := by rwa [EndsVisibly, List.getLast?_reverse]
      have same : declaration name line (front.reverse ++ blank.reverse.map Node.leaf).reverse = _ :=
        declaration_blank name line white.reverse
      have unmarked : beforeImportant (ComponentValue.ofNodes front.reverse.reverse) = none := by
        rw [← Option.isNone_iff_eq_none, ← Option.isSome_eq_false_iff, ← (declaration_of name line front.reverse.reverse).2.2,
          ← same, (declaration_of name line _).2.2, marked]
        rfl
      obtain ⟨ms, cut⟩ := exists_tightens (Node.areNested_append.mp nested).1.anywhere
      have ahead := kept.ahead rfl fun rest row behind => endsText_blank white.reverse row behind
      rw [same]
      exact ⟨ms, restated_unmarked name line ahead cut ends (fun n hn => within n (List.mem_append_left _ hn)) unmarked⟩
  | some values =>
      obtain ⟨front, m, tail, rfl, written, blank, ends⟩ := exists_mark marked
      have closed := (Node.areNested_append.mp nested).1
      obtain ⟨ms, cut⟩ := exists_tightens closed
      obtain ⟨_, row, -⟩ := kept.row
      have spelled : m.IsSpelled := written.spelled fun t ht => row.isRead <| List.mem_map_of_mem <| by
        rw [listTokens_append, listTokens_leaves]
        simp [ht]
      have ahead := kept.ahead rfl fun rest row _ => written.endsText row
      exact ⟨_, restated_marked name line ahead cut ends (fun n hn => within n (List.mem_append_left _ hn)) written spelled blank
        closed⟩

/-! Preludes. -/

/-- White space in front of tokens is not kept. -/
theorem compactFrom_start (space : Bool) (ts : List Token) : compactFrom none space ts = compactFrom none false ts := by
  cases ts with
  | nil => rfl
  | cons t ts => simp [compactFrom]

theorem StartsMark.visible {rest : List Char} (h : StartsMark rest) : StopsAt isSpace rest := by
  obtain ⟨c, more, rfl, sign | ⟨rfl, -⟩⟩ := h
  · exact StopsAt.cons (isBreak_of_mem sign).1.space
  · exact StopsAt.cons (by decide)

/-- The text of cut down tokens does not begin with white space. -/
theorem Spells.visible {around : Option Bracket} {ns ms : List Node} {text : List Char} (h : Spells around ms text StartsMark)
    (cut : Tightens around ns ms) {rest : List Char} (mark : StartsMark rest) : StopsAt isSpace (text ++ rest) := by
  have row := h.row rest mark
  have kinds := (kinds_tightened .comma ((listTokens ns).map Token.piece)).symm
  rw [← cut.tokens] at kinds
  rw [← h.spelled]
  cases first : (listTokens ms).map Token.piece with
  | nil => exact mark.visible
  | cons p ps =>
      rw [first] at row kinds
      obtain ⟨c, more, same, space⟩ := row.1.head
      have visible : p.kind ≠ .whitespace := head?_tightKinds (congrArg List.head? kinds)
      rw [spelling_cons, same]
      exact StopsAt.cons (Bool.eq_false_iff.mpr fun blank => visible (space.mpr blank))

/-- A prelude in its compact form, with a space in front of it unless it is empty. -/
theorem exists_prelude {around : Option Bracket} {prelude : List Node} (kept : IsKept prelude)
    (nested : Node.AreNested around false prelude) (inside : ∀ n ∈ prelude, InPrelude n) :
    ∃ ns, Spells around ns (spacedPrelude (textOf prelude.reverse)).toList StartsMark ∧ (∀ n ∈ ns, InPrelude n) ∧
      textOf ns.reverse = textOf prelude.reverse := by
  obtain ⟨ms, cut⟩ := exists_tightens nested
  obtain ⟨rest, row, -⟩ := kept.row
  have within : ∀ m ∈ ms, InPrelude m := fun m hm => by
    obtain ⟨n, hn, same, curly⟩ := cut.sifts.alike m hm
    exact ⟨curly.trans (inside n hn).1, same ▸ (inside n hn).2⟩
  have text : compactText (listTokens prelude) = (textOf prelude.reverse).toList := by
    rw [textOf, List.reverse_reverse, String.toList_ofList]
  have spells := kept.spells cut
  rw [text] at spells
  by_cases empty : textOf prelude.reverse = ""
  · rw [empty] at spells
    refine ⟨ms, ?_, within, cut.textOf row⟩
    rw [spacedPrelude, if_pos empty]
    exact spells
  · have space : Spells around [Piece.space.leaf] [' '] (StopsAt isSpace) :=
      .leaf rfl (List.all_eq_true.mp (by decide)) fun rest hr => ReadBefore.space hr
    have blank : Piece.space.leaf.kind? ≠ some .semicolon := by simp [Piece.leaf, Piece.space, Piece.mark, Node.kind?]
    refine ⟨Piece.space.leaf :: ms, ?_, List.forall_mem_cons.mpr ⟨⟨rfl, blank⟩, within⟩, ?_⟩
    · rw [spacedPrelude, if_neg empty, String.toList_append]
      exact space.append spells fun rest mark => spells.visible cut mark
    · rw [← cut.textOf row, textOf, textOf, List.reverse_reverse, List.reverse_reverse]
      exact congrArg String.ofList (compactFrom_start true (listTokens ms))

/-- The keyword and the prelude of an at-rule in its compact form. -/
theorem exists_atHead {around : Option Bracket} {prelude : List Node} (kept : IsKept prelude)
    (nested : Node.AreNested around false prelude) (inside : ∀ n ∈ prelude, InPrelude n) {name : String}
    (hn : IsName name.toList) :
    ∃ keyword ns, keyword.kind = .atKeyword name ∧ (∀ n ∈ ns, InPrelude n) ∧ textOf ns.reverse = textOf prelude.reverse ∧
      Spells around (.leaf keyword :: ns) (compactAtRule name (textOf prelude.reverse)).toList StartsMark := by
  obtain ⟨ns, spells, within, same⟩ := exists_prelude kept nested inside
  have piece : Piece.atWord name.toList = ⟨.atKeyword name, '@' :: name.toList⟩ := by rw [Piece.atWord, String.ofList_toList]
  have inline : ∀ c ∈ '@' :: name.toList, isInline c = true :=
    List.forall_mem_cons.mpr ⟨rfl, fun c hc => isInline_of_isNameChar (hn.letters c hc)⟩
  have keyword : Spells around [Piece.leaf ⟨.atKeyword name, '@' :: name.toList⟩] ('@' :: name.toList) WordEnd :=
    .leaf rfl inline fun rest hr => piece ▸ ReadBefore.atName hn hr
  refine ⟨⟨.atKeyword name, {}, '@' :: name.toList⟩, ns, rfl, within, same, ?_⟩
  rw [compactAtRule_eq, String.toList_append, String.toList_append]
  exact keyword.append spells fun rest mark => wordEnd_prelude _ mark.wordEnd

end StyleAudit.Css
