import StyleAudit.Proofs.SelectorWords
import StyleAudit.Proofs.TokenSpans
/-!
Texts taken apart into pieces that are read one after another. A piece says what its token is and how it is spelled; the
places of the tokens come from the text.
-/
namespace StyleAudit.Css

open Text (Scan)
open Selector (StopsAt isIdentifier isIdentifier_spec isLetter isLetter_iff isWordChar isWordChar_iff isAlpha_iff
  isDigit_iff char_eq_iff)

/-- What a token is and the text it is read from. -/
structure Piece where
  kind : TokenKind
  lexeme : List Char

/-- A character that the normal form of a source keeps, and that ends no line. -/
def isInline (c : Char) : Bool := c != '\n' && c != '\r' && c != '\x0c' && c != '\x00'

def spelling (pieces : List Piece) : List Char := pieces.flatMap Piece.lexeme

/-- A piece is its token in front of a text, and the text it is read from. -/
structure Piece.IsRead (p : Piece) (rest : List Char) : Prop where
  uncommented : comments (p.lexeme ++ rest) = 0
  token : ∃ c more, p.lexeme = c :: more ∧ (token c (more ++ rest)).value = p.kind ∧
    (p.lexeme ++ rest).take (token c (more ++ rest)).size = p.lexeme

/-- A piece of a line is read as its token in front of a text. -/
structure Piece.ReadBefore (p : Piece) (rest : List Char) : Prop where
  inline : ∀ c ∈ p.lexeme, isInline c = true
  uncommented : comments (p.lexeme ++ rest) = 0
  token : ∃ c more, p.lexeme = c :: more ∧ token c (more ++ rest) = ⟨p.kind, p.lexeme.length⟩

/-- Pieces that stay apart: each is read in front of those behind it and of the rest of the text. -/
def Apart : List Piece → List Char → Prop
  | [], _ => True
  | p :: pieces, rest => p.ReadBefore (spelling pieces ++ rest) ∧ Apart pieces rest

theorem spelling_append (ps qs : List Piece) : spelling (ps ++ qs) = spelling ps ++ spelling qs := List.flatMap_append

theorem spelling_cons (p : Piece) (ps : List Piece) : spelling (p :: ps) = p.lexeme ++ spelling ps := List.flatMap_cons

theorem Apart.append {ps qs : List Piece} {rest : List Char} (hp : Apart ps (spelling qs ++ rest)) (hq : Apart qs rest) :
    Apart (ps ++ qs) rest := by
  induction ps with
  | nil => exact hq
  | cons p ps ih =>
      obtain ⟨first, later⟩ := hp
      refine ⟨?_, ih later⟩
      rw [← List.append_assoc, ← spelling_append] at first
      exact first

/-- Tokens on the first line that are what the pieces say. -/
def Carries (ts : List Token) (pieces : List Piece) : Prop :=
  ts.map (fun t => (t.kind, t.lexeme, t.line)) = pieces.map (fun p => (p.kind, p.lexeme, 1))

theorem Carries.append {ts : List Token} {ps qs : List Piece} (h : Carries ts (ps ++ qs)) :
    ∃ before behind, ts = before ++ behind ∧ Carries before ps ∧ Carries behind qs := by
  rw [Carries, List.map_append] at h
  obtain ⟨before, behind, rfl, hp, hq⟩ := List.map_eq_append_iff.mp h
  exact ⟨before, behind, rfl, hp, hq⟩

theorem Carries.cons {ts : List Token} {p : Piece} {ps : List Piece} (h : Carries ts (p :: ps)) :
    ∃ t more, ts = t :: more ∧ t.kind = p.kind ∧ t.lexeme = p.lexeme ∧ t.line = 1 ∧ Carries more ps := by
  rw [Carries, List.map_cons] at h
  obtain ⟨t, more, rfl, first, later⟩ := List.map_eq_cons_iff.mp h
  simp only [Prod.mk.injEq] at first
  exact ⟨t, more, rfl, first.1, first.2.1, first.2.2, later⟩

theorem Carries.nil {ts : List Token} (h : Carries ts []) : ts = [] := List.map_eq_nil_iff.mp h

theorem Carries.forall_kind {ts : List Token} {pieces : List Piece} (good : TokenKind → Prop) (hc : Carries ts pieces)
    (h : ∀ p ∈ pieces, good p.kind) : ∀ t ∈ ts, good t.kind := by
  intro t ht
  have mem := List.mem_map_of_mem (f := fun t : Token => (t.kind, t.lexeme, t.line)) ht
  rw [hc, List.mem_map] at mem
  obtain ⟨p, hp, same⟩ := mem
  simp only [Prod.mk.injEq] at same
  rw [← same.1]
  exact h p hp

theorem line_after_inline {place : Place} {text : List Char} (h : ∀ c ∈ text, isInline c = true) :
    (place.after text).line = place.line := by
  have none : text.count '\n' = 0 := by
    rw [List.count_eq_zero]
    intro mem
    exact absurd (h '\n' mem) (by decide)
  simp [Place.after, none]

theorem tokensFrom_nil (place : Place) : tokensFrom place [] = [⟨.endOfSource, place, []⟩] := by
  rw [tokensFrom.eq_def]
  dsimp only
  split
  · simp [comments]
  · next e => simp at e

theorem Piece.IsRead.tokensFrom {p : Piece} {rest : List Char} (h : p.IsRead rest) (place : Place) :
    tokensFrom place (p.lexeme ++ rest) = ⟨p.kind, place, p.lexeme⟩ :: Css.tokensFrom (place.after p.lexeme) rest := by
  obtain ⟨c, more, same, kind, taken⟩ := h.token
  have uncommented := h.uncommented
  have cut := List.take_append_drop (Css.token c (more ++ rest)).size (p.lexeme ++ rest)
  rw [taken] at cut
  have left := List.append_cancel_left cut
  have whole : (p.lexeme ++ rest).drop (comments (p.lexeme ++ rest)) = c :: (more ++ rest) := by
    rw [uncommented, same]
    rfl
  rw [same, List.cons_append] at taken left
  rw [tokensFrom.eq_def]
  dsimp only
  split
  · next e => rw [whole] at e; cases e
  · next d behind e =>
      rw [whole] at e
      obtain ⟨rfl, rfl⟩ := List.cons.inj e
      rw [taken, left, kind, uncommented, List.take_zero, Place.after_nil, ← same]

theorem Piece.ReadBefore.isRead {p : Piece} {rest : List Char} (h : p.ReadBefore rest) : p.IsRead rest := by
  obtain ⟨-, uncommented, c, more, same, read⟩ := h
  exact ⟨uncommented, c, more, same, by rw [read], by rw [read, List.take_left]⟩

theorem tokensFrom_piece {p : Piece} {rest : List Char} (h : p.ReadBefore rest) (place : Place) :
    tokensFrom place (p.lexeme ++ rest) = ⟨p.kind, place, p.lexeme⟩ :: tokensFrom (place.after p.lexeme) rest :=
  h.isRead.tokensFrom place

/-- Pieces that stay apart are the tokens of the text they spell. -/
theorem tokensFrom_apart {pieces : List Piece} (h : Apart pieces []) {place : Place} (hl : place.line = 1) :
    ∃ ts stop, tokensFrom place (spelling pieces) = ts ++ [⟨.endOfSource, stop, []⟩] ∧ Carries ts pieces ∧
      ∀ t ∈ ts, t.kind ≠ .endOfSource := by
  induction pieces generalizing place with
  | nil => exact ⟨[], place, tokensFrom_nil place, rfl, by simp⟩
  | cons p pieces ih =>
      obtain ⟨first, later⟩ := h
      rw [List.append_nil] at first
      have kind : p.kind ≠ .endOfSource := by
        obtain ⟨c, more, _, read⟩ := first.token
        have known := token_ne_endOfSource c (more ++ spelling pieces)
        rw [read] at known
        exact known
      have line : (place.after p.lexeme).line = 1 := by rw [line_after_inline first.inline, hl]
      obtain ⟨ts, stop, tail, carries, kinds⟩ := ih later line
      refine ⟨⟨p.kind, place, p.lexeme⟩ :: ts, stop, ?_, ?_, List.forall_mem_cons.mpr ⟨kind, kinds⟩⟩
      · rw [spelling_cons, tokensFrom_piece first, tail]
        rfl
      · rw [Carries, List.map_cons, List.map_cons, carries]
        simp [Token.line, hl]

/-! Names and what begins with them. -/

/-- The characters with which a name goes on. -/
def extendsName (c : Char) : Bool := isNameChar c || c == '\\'

/-- The characters with which a word goes on, or becomes something else. -/
def extendsWord (c : Char) : Bool := extendsName c || c == '(' || c == '>'

theorem stopsName {text : List Char} (h : StopsAt extendsWord text) : StopsAt extendsName text :=
  h.mono fun c hc => by simp [extendsWord, hc]

theorem isNameStart_iff {c : Char} : isNameStart c = true ↔
    ((65 ≤ c.toNat ∧ c.toNat ≤ 90) ∨ (97 ≤ c.toNat ∧ c.toNat ≤ 122)) ∨ c.toNat = 95 ∨ 128 ≤ c.toNat := by
  simp [isNameStart, isAlpha_iff, char_eq_iff, or_assoc]

theorem isNameChar_iff {c : Char} :
    isNameChar c = true ↔ isNameStart c = true ∨ (48 ≤ c.toNat ∧ c.toNat ≤ 57) ∨ c.toNat = 45 := by
  simp [isNameChar, isDigit_iff, char_eq_iff, or_assoc]

theorem isNameStart_of_isLetter {c : Char} (h : isLetter c = true) : isNameStart c = true := by
  rw [isLetter_iff] at h
  rw [isNameStart_iff]
  omega

theorem isNameChar_of_isWordChar {c : Char} (h : isWordChar c = true) : isNameChar c = true := by
  rw [isWordChar_iff] at h
  rw [isNameChar_iff, isNameStart_iff]
  omega

theorem name_stops {text : List Char} (h : StopsAt extendsName text) : name text = ⟨[], 0⟩ := by
  cases text with
  | nil => rw [name]
  | cons c rest =>
      have first := h c rfl
      simp only [extendsName, Bool.or_eq_false_iff, beq_eq_false_iff_ne] at first
      obtain ⟨letter, slash⟩ := first
      rw [name, letter]
      simp [startsEscape, slash]

/-- The spelling of a name without escapes. -/
structure IsName (word : List Char) : Prop where
  letters : ∀ c ∈ word, isNameChar c = true
  begins : (∃ c rest, word = c :: rest ∧ isNameStart c = true) ∨
    ∃ c rest, word = '-' :: c :: rest ∧ (isNameStart c = true ∨ c = '-')

theorem IsName.of_isIdentifier {word : List Char} (h : isIdentifier word = true) : IsName word := by
  obtain ⟨chars, begins⟩ := isIdentifier_spec h
  refine ⟨fun c hc => isNameChar_of_isWordChar (chars c hc), begins.imp ?_ ?_⟩
  · rintro ⟨c, rest, same, letter⟩
    exact ⟨c, rest, same, isNameStart_of_isLetter letter⟩
  · rintro ⟨c, rest, same, second⟩
    exact ⟨c, rest, same, second.imp_left isNameStart_of_isLetter⟩

/-- A name is read up to the character that stops it. -/
theorem name_letters {word rest : List Char} (hw : ∀ c ∈ word, isNameChar c = true) (hr : StopsAt extendsName rest) :
    name (word ++ rest) = ⟨word, word.length⟩ := by
  induction word with
  | nil => exact name_stops hr
  | cons c word ih =>
      rw [List.cons_append, name, if_pos (hw c (by simp)), ih fun d hd => hw d (by simp [hd])]
      simp [Scan.behind, Nat.add_comm]

theorem name_word {word rest : List Char} (hw : ∀ c ∈ word, isWordChar c = true) (hr : StopsAt extendsName rest) :
    name (word ++ rest) = ⟨word, word.length⟩ := name_letters (fun c hc => isNameChar_of_isWordChar (hw c hc)) hr

theorem startsIdent_name {word : List Char} (h : IsName word) (rest : List Char) : startsIdent (word ++ rest) = true := by
  rcases h.begins with ⟨c, more, rfl, start⟩ | ⟨c, more, rfl, second⟩
  · rw [List.cons_append]
    unfold startsIdent
    split
    · next e => cases e
    · next e =>
        obtain ⟨rfl, -⟩ := List.cons.inj e
        exact absurd start (by decide)
    · next e =>
        obtain ⟨rfl, -⟩ := List.cons.inj e
        rw [start, Bool.true_or]
  · rcases second with start | rfl
    · simp [startsIdent, start]
    · simp [startsIdent]

theorem startsIdent_identifier {word : List Char} (h : isIdentifier word = true) (rest : List Char) :
    startsIdent (word ++ rest) = true := startsIdent_name (.of_isIdentifier h) rest

theorem punctuation?_name {c : Char} (h : isNameChar c = true) : punctuation? c = none := by
  unfold punctuation?
  split <;> first | rfl | exact absurd h (by decide)

theorem isInline_of_isNameChar {c : Char} (h : isNameChar c = true) : isInline c = true := by
  rw [isNameChar_iff, isNameStart_iff] at h
  simp only [isInline, Bool.and_eq_true, bne_iff_ne, ne_eq, char_eq_iff]
  simp
  omega

theorem comments_of_first {c : Char} (h : c ≠ '/') (rest : List Char) : comments (c :: rest) = 0 := by
  unfold comments
  split
  · next e =>
      obtain ⟨rfl, -⟩ := List.cons.inj e
      exact absurd rfl h
  · rfl

theorem starts_unsigned {text rest : List Char} {c : Char} (unsigned : (Numeral.takeSign text).2 = c :: rest)
    (first : isNameStart c = true ∨ c = '-') : Numeral.starts text = false := by
  unfold Numeral.starts
  rw [unsigned]
  split
  · next e =>
      obtain ⟨rfl, -⟩ := List.cons.inj e
      exact absurd first (by decide)
  · rcases first with start | rfl
    · rw [isNameStart_iff] at start
      rw [Numeral.startsDigit, Bool.eq_false_iff, ne_eq, isDigit_iff]
      omega
    · rfl

/-- A name begins no number, whatever stands behind it. -/
theorem starts_name {word : List Char} (h : IsName word) (rest : List Char) : Numeral.starts (word ++ rest) = false := by
  rcases h.begins with ⟨c, more, rfl, start⟩ | ⟨c, more, rfl, second⟩
  · have unsigned : ¬ (c = '+' ∨ c = '-') := by rintro (rfl | rfl) <;> exact absurd start (by decide)
    have same : (Numeral.takeSign (c :: more ++ rest)).2 = c :: (more ++ rest) := by
      rw [List.cons_append, Numeral.takeSign, if_neg unsigned]
    exact starts_unsigned same (.inl start)
  · have behind : (Numeral.takeSign ('-' :: c :: more ++ rest)).2 = c :: (more ++ rest) := rfl
    exact starts_unsigned behind second

theorem not_commentClose {word rest : List Char} (hw : ∀ c ∈ word, isNameChar c = true)
    (hr : StopsAt extendsWord rest) : ¬ ['-', '>'] <+: word ++ rest := by
  rintro ⟨more, e⟩
  match word with
  | [] =>
      have front : rest.head? = some '-' := (congrArg List.head? e).symm
      exact absurd (hr '-' front) (by decide)
  | [c] =>
      obtain ⟨-, e⟩ := List.cons.inj e
      have front : rest.head? = some '>' := (congrArg List.head? e).symm
      exact absurd (hr '>' front) (by decide)
  | c :: d :: _ =>
      obtain ⟨-, e⟩ := List.cons.inj e
      obtain ⟨rfl, -⟩ := List.cons.inj e
      exact absurd (hw '>' (by simp)) (by decide)

theorem identToken_name {word rest : List Char} (h : IsName word) (hr : StopsAt extendsWord rest) :
    identToken (word ++ rest) = ⟨.ident (String.ofList word), word.length⟩ := by
  unfold identToken
  simp only [name_letters h.letters (stopsName hr), List.drop_left]
  split
  · exact absurd (hr '(' rfl) (by decide)
  · rfl

theorem token_name {c : Char} {word rest : List Char} (h : IsName (c :: word)) (hr : StopsAt extendsWord rest) :
    token c (word ++ rest) = ⟨.ident (String.ofList (c :: word)), (c :: word).length⟩ := by
  have first := h.letters c (by simp)
  have other (d : Char) (hd : isNameChar d = false) : c ≠ d := by
    rintro rfl
    rw [first] at hd
    cases hd
  have space : isSpace c = false := by
    simp [isSpace, other '\n' rfl, other '\t' rfl, other ' ' rfl]
  have number := starts_name h rest
  have start := startsIdent_name h rest
  have close := not_commentClose (fun d hd => h.letters d (List.mem_cons_of_mem c hd)) hr
  rw [List.cons_append] at number start
  unfold token
  simp only [punctuation?_name first, space, other '"' rfl, other '\'' rfl, other '<' rfl, other '#' rfl, other '@' rfl,
    number, start, close, false_and, and_false, or_self, if_false, if_true, Bool.false_eq_true]
  exact identToken_name h hr

/-! Pieces, and what may stand behind each. -/

namespace Piece

def word (spelling : List Char) : Piece := ⟨.ident (String.ofList spelling), spelling⟩

def hash (spelling : List Char) : Piece := ⟨.hash (String.ofList spelling) .id, '#' :: spelling⟩

def atWord (spelling : List Char) : Piece := ⟨.atKeyword (String.ofList spelling), '@' :: spelling⟩

def mark (kind : TokenKind) (c : Char) : Piece := ⟨kind, [c]⟩

def dot : Piece := mark (.delim '.') '.'

def bang : Piece := mark (.delim '!') '!'

def space : Piece := mark .whitespace ' '

def quoted (value : List Char) : Piece := ⟨.string (String.ofList value), '"' :: (value ++ ['"'])⟩

def urlOpening : Piece := ⟨.function "url", "url(".toList⟩

end Piece

/-- A character that can stand between double quotes as it is. -/
def isQuotable (c : Char) : Bool := isInline c && c != '"' && c != '\\'

theorem inline_cons {c : Char} {word : List Char} (hc : isInline c = true) (h : isIdentifier word = true) :
    ∀ d ∈ c :: word, isInline d = true :=
  List.forall_mem_cons.mpr ⟨hc, fun d hd => isInline_of_isNameChar ((IsName.of_isIdentifier h).letters d hd)⟩

theorem ReadBefore.plainName {word rest : List Char} (h : IsName word) (hr : StopsAt extendsWord rest) :
    (Piece.word word).ReadBefore rest := by
  cases word with
  | nil => rcases h.begins with ⟨_, _, none, _⟩ | ⟨_, _, none, _⟩ <;> cases none
  | cons c word =>
      have slash : c ≠ '/' := by
        rintro rfl
        exact absurd (h.letters '/' (by simp)) (by decide)
      exact ⟨fun d hd => isInline_of_isNameChar (h.letters d hd), comments_of_first slash _, c, word, rfl, token_name h hr⟩

theorem ReadBefore.word {word rest : List Char} (h : isIdentifier word = true) (hr : StopsAt extendsWord rest) :
    (Piece.word word).ReadBefore rest := ReadBefore.plainName (.of_isIdentifier h) hr

theorem startsName_identifier {word : List Char} (h : isIdentifier word = true) (rest : List Char) :
    startsName (word ++ rest) = true := by
  cases word with
  | nil => cases h
  | cons c word =>
      rw [List.cons_append, startsName, isNameChar_of_isWordChar ((isIdentifier_spec h).1 c (by simp)), Bool.true_or]

theorem ReadBefore.hash {word rest : List Char} (h : isIdentifier word = true) (hr : StopsAt extendsWord rest) :
    (Piece.hash word).ReadBefore rest := by
  refine ⟨inline_cons rfl h, comments_of_first (by decide) _, '#', word, rfl, ?_⟩
  have number : Numeral.starts ('#' :: (word ++ rest)) = false := rfl
  have name := name_word (isIdentifier_spec h).1 (stopsName hr)
  unfold token
  simp [punctuation?, isSpace, number, startsName_identifier h rest, hashToken, name, startsIdent_identifier h rest,
    Scan.behind, Piece.hash, Nat.add_comm]

theorem ReadBefore.atName {word rest : List Char} (h : IsName word) (hr : StopsAt extendsWord rest) :
    (Piece.atWord word).ReadBefore rest := by
  have inline : ∀ c ∈ word, isInline c = true := fun c hc => isInline_of_isNameChar (h.letters c hc)
  refine ⟨List.forall_mem_cons.mpr ⟨rfl, inline⟩, comments_of_first (by decide) _, '@', word, rfl, ?_⟩
  have number : Numeral.starts ('@' :: (word ++ rest)) = false := rfl
  have name := name_letters h.letters (stopsName hr)
  unfold token
  simp [punctuation?, isSpace, number, name, startsIdent_name h rest, Scan.behind, Piece.atWord, Nat.add_comm]

theorem ReadBefore.atWord {word rest : List Char} (h : isIdentifier word = true) (hr : StopsAt extendsWord rest) :
    (Piece.atWord word).ReadBefore rest := ReadBefore.atName (.of_isIdentifier h) hr

theorem ReadBefore.mark {c : Char} {kind : TokenKind} (h : punctuation? c = some kind) (rest : List Char) :
    (Piece.mark kind c).ReadBefore rest := by
  have plain : isInline c = true ∧ c ≠ '/' := by
    refine ⟨?_, ?_⟩
    · cases hc : isInline c with
      | true => rfl
      | false =>
          simp only [isInline, Bool.and_eq_false_iff, bne_eq_false_iff_eq] at hc
          rcases hc with ((rfl | rfl) | rfl) | rfl <;> cases h
    · rintro rfl
      cases h
  refine ⟨by simpa [Piece.mark] using plain.1, comments_of_first plain.2 _, c, [], rfl, ?_⟩
  unfold token
  rw [h]
  rfl

theorem ReadBefore.dot {word : List Char} (h : isIdentifier word = true) (rest : List Char) :
    Piece.dot.ReadBefore (word ++ rest) := by
  refine ⟨List.all_eq_true.mp (by decide), comments_of_first (by decide) _, '.', [], rfl, ?_⟩
  have number : Numeral.starts ('.' :: (word ++ rest)) = false := by
    cases word with
    | nil => cases h
    | cons c word =>
        have letter : isLetter c = true ∨ c = '-' := by
          rcases (isIdentifier_spec h).2 with ⟨_, _, e, letter⟩ | ⟨_, _, e, _⟩
          · exact .inl ((List.cons.inj e).1 ▸ letter)
          · exact .inr (List.cons.inj e).1
        change c.isDigit = false
        rw [Bool.eq_false_iff, ne_eq, isDigit_iff]
        rcases letter with letter | rfl
        · rw [isLetter_iff] at letter
          omega
        · decide
  have start : startsIdent ('.' :: (word ++ rest)) = false := rfl
  unfold token
  simp [punctuation?, isSpace, number, start, Piece.dot, Piece.mark]

theorem ReadBefore.bang (rest : List Char) : Piece.bang.ReadBefore rest := by
  refine ⟨List.all_eq_true.mp (by decide), comments_of_first (by decide) _, '!', [], rfl, ?_⟩
  have number : Numeral.starts ('!' :: rest) = false := rfl
  have start : startsIdent ('!' :: rest) = false := rfl
  unfold token
  simp [punctuation?, isSpace, number, start, Piece.bang, Piece.mark]

theorem ReadBefore.space {rest : List Char} (hr : StopsAt isSpace rest) : Piece.space.ReadBefore rest := by
  refine ⟨List.all_eq_true.mp (by decide), comments_of_first (by decide) _, ' ', [], rfl, ?_⟩
  have none : spaces rest = 0 := by
    cases rest with
    | nil => rfl
    | cons c rest => simp [spaces, hr c rfl]
  unfold token
  simp [punctuation?, isSpace, none, Piece.space, Piece.mark]

theorem string_quotable {value : List Char} (h : ∀ c ∈ value, isQuotable c = true) (rest : List Char) :
    string '"' (value ++ '"' :: rest) = ⟨some value, value.length + 1⟩ := by
  induction value with
  | nil =>
      rw [List.nil_append, string.eq_def]
      simp
  | cons c value ih =>
      have first := h c (by simp)
      simp only [isQuotable, isInline, Bool.and_eq_true, bne_iff_ne, ne_eq] at first
      obtain ⟨⟨⟨⟨⟨line, _⟩, _⟩, _⟩, quote⟩, slash⟩ := first
      rw [List.cons_append, string.eq_def]
      simp only [if_neg quote, if_neg line, if_neg slash, ih fun d hd => h d (by simp [hd])]
      simp [Scan.behind]
      omega

theorem ReadBefore.quoted {value : List Char} (h : ∀ c ∈ value, isQuotable c = true) (rest : List Char) :
    (Piece.quoted value).ReadBefore rest := by
  refine ⟨?_, comments_of_first (by decide) _, '"', value ++ ['"'], rfl, ?_⟩
  · have inside : ∀ c ∈ value, isInline c = true := fun c hc => by
      have := h c hc
      simp only [isQuotable, Bool.and_eq_true] at this
      exact this.1.1
    simpa [Piece.quoted, or_imp, forall_and, isInline] using inside
  · unfold token
    rw [List.append_assoc, List.singleton_append]
    simp [punctuation?, isSpace, stringToken, string_quotable h, Scan.behind, Piece.quoted]
    omega

theorem ReadBefore.urlOpening (rest : List Char) : Piece.urlOpening.ReadBefore ('"' :: rest) := by
  refine ⟨List.all_eq_true.mp (by decide), comments_of_first (by decide) _, 'u', "rl(".toList, rfl, ?_⟩
  have word : ∀ c ∈ "url".toList, isWordChar c = true := List.all_eq_true.mp (by decide)
  have opening : StopsAt extendsName ('(' :: '"' :: rest) := .cons (by decide)
  have name : name ('u' :: 'r' :: 'l' :: '(' :: '"' :: rest) = ⟨"url".toList, 3⟩ := name_word word opening
  have number : Numeral.starts ('u' :: 'r' :: 'l' :: '(' :: '"' :: rest) = false := rfl
  have start : startsIdent ('u' :: 'r' :: 'l' :: '(' :: '"' :: rest) = true := rfl
  have function : identToken ('u' :: 'r' :: 'l' :: '(' :: '"' :: rest) = ⟨.function "url", 4⟩ := by
    unfold identToken
    rw [name]
    rfl
  unfold token
  simp [punctuation?, isSpace, number, start, function, Piece.urlOpening]

end StyleAudit.Css
