import StyleAudit.Proofs.ReadingSteps
import StyleAudit.Proofs.Trimming
import StyleAudit.Proofs.WrittenNodes
/-!
Words with single spaces between them: how they are read as tokens, and that the compact text of the tokens is the text
they were read from.
-/
namespace StyleAudit.Css

open Selector (StopsAt isIdentifier isIdentifier_spec isWordChar isWordChar_iff)

/-- A piece that is passed over wherever selectors, values and preludes are taken apart. -/
structure Piece.Solid (p : Piece) : Prop where
  leaf : p.kind.IsLeaf
  visible : p.kind ≠ .whitespace
  comma : p.kind ≠ .comma
  semicolon : p.kind ≠ .semicolon
  last : ∃ c, p.lexeme.getLast? = some c ∧ c ≠ ','

/-- Pieces that are written without white space between them and end like a word. -/
structure IsUnit (unit : List Piece) : Prop where
  some : unit ≠ []
  solid : ∀ p ∈ unit, p.Solid
  apart : ∀ rest, WordEnd rest → Apart unit rest
  start : ∀ rest, StopsAt isSpace (spelling unit ++ rest)

/-- Units with single spaces between them. -/
def phrase : List (List Piece) → List Piece
  | [] => []
  | [unit] => unit
  | unit :: next :: rest => unit ++ Piece.space :: phrase (next :: rest)

theorem spelling_phrase (units : List (List Piece)) : spelling (phrase units) = [' '].intercalate (units.map spelling) := by
  induction units with
  | nil => rfl
  | cons unit rest ih =>
      cases rest with
      | nil => simp [phrase]
      | cons next rest =>
          rw [phrase, spelling_append, spelling_cons, ih]
          simp [List.intercalate_cons_cons, Piece.space, Piece.mark]

theorem phrase_start {units : List (List Piece)} (h : ∀ unit ∈ units, IsUnit unit) (hne : units ≠ []) (rest : List Char) :
    StopsAt isSpace (spelling (phrase units) ++ rest) := by
  match units with
  | [] => exact absurd rfl hne
  | [unit] => exact (h unit (by simp)).start rest
  | unit :: next :: more =>
      rw [phrase, spelling_append, List.append_assoc]
      exact (h unit (by simp)).start _

theorem phrase_apart {units : List (List Piece)} (h : ∀ unit ∈ units, IsUnit unit) {rest : List Char}
    (hr : WordEnd rest) : Apart (phrase units) rest := by
  induction units with
  | nil => trivial
  | cons unit more ih =>
      have first := h unit (by simp)
      have later : ∀ unit ∈ more, IsUnit unit := fun u hu => h u (by simp [hu])
      cases more with
      | nil => exact first.apart rest hr
      | cons next more =>
          refine Apart.append (first.apart _ ?_) ⟨ReadBefore.space (phrase_start later (by simp) rest), ih later⟩
          exact StopsAt.cons (by decide)

theorem phrase_kinds {units : List (List Piece)} (h : ∀ unit ∈ units, IsUnit unit) :
    ∀ p ∈ phrase units, p.kind.IsLeaf ∧ p.kind ≠ .comma ∧ p.kind ≠ .semicolon := by
  have solid : ∀ unit ∈ units, ∀ p ∈ unit, p.kind.IsLeaf ∧ p.kind ≠ .comma ∧ p.kind ≠ .semicolon := fun unit hu p hp =>
    ⟨((h unit hu).solid p hp).leaf, ((h unit hu).solid p hp).comma, ((h unit hu).solid p hp).semicolon⟩
  induction units with
  | nil => simp [phrase]
  | cons unit more ih =>
      have later := ih (fun u hu => h u (by simp [hu])) fun u hu => solid u (by simp [hu])
      cases more with
      | nil => exact solid unit (by simp)
      | cons next more =>
          rw [phrase]
          refine List.forall_mem_append.mpr ⟨solid unit (by simp), List.forall_mem_cons.mpr ⟨?_, later⟩⟩
          exact ⟨⟨rfl, by simp [Piece.space, Piece.mark]⟩, by simp [Piece.space, Piece.mark],
            by simp [Piece.space, Piece.mark]⟩

/-! The compact text of tokens. -/

/-- What white space behind a text comes to in front of a token that is no comma. -/
def gap (last : Option Char) (space : Bool) : List Char :=
  if space && last.isSome && last != some ',' then [' '] else []

/-- Tokens whose compact text is the given one, with whatever gap is in front and whatever stands behind. -/
def Compacts (ts : List Token) (text : List Char) : Prop := ∀ last space, ∃ c, c ≠ ',' ∧
  ∀ behind, compactFrom last space (ts ++ behind) = gap last space ++ (text ++ compactFrom (some c) false behind)

namespace Compacts

variable {ts us : List Token} {text other : List Char}

theorem token {t : Token} {p : Piece} (h : p.Solid) (hk : t.kind = p.kind) (hl : t.lexeme = p.lexeme) :
    Compacts [t] p.lexeme := by
  intro last space
  obtain ⟨c, final, plain⟩ := h.last
  refine ⟨c, plain, fun behind => ?_⟩
  have notComma : (t.kind != .comma) = true := by simpa [hk] using h.comma
  rw [List.singleton_append, compactFrom, if_neg (hk ▸ h.visible), notComma, Bool.and_true, hl, final,
    List.append_assoc]
  rfl

theorem append (h : Compacts ts text) (h' : Compacts us other) : Compacts (ts ++ us) (text ++ other) := by
  intro last space
  obtain ⟨c, _, read⟩ := h last space
  obtain ⟨d, plain, read'⟩ := h' (some c) false
  refine ⟨d, plain, fun behind => ?_⟩
  rw [List.append_assoc, read, read', List.append_assoc]
  rfl

theorem spaced {w : Token} (h : Compacts ts text) (hw : w.kind = .whitespace) (h' : Compacts us other) :
    Compacts (ts ++ w :: us) (text ++ ' ' :: other) := by
  intro last space
  obtain ⟨c, plain, read⟩ := h last space
  obtain ⟨d, plain', read'⟩ := h' (some c) true
  refine ⟨d, plain', fun behind => ?_⟩
  have single : gap (some c) true = [' '] := by simp [gap, plain]
  rw [List.append_assoc, List.cons_append, read, compactFrom, if_pos hw, read', single]
  simp

theorem compactText_eq (h : Compacts ts text) : compactText ts = text := by
  obtain ⟨c, _, read⟩ := h none false
  have whole := read []
  rw [List.append_nil] at whole
  rw [compactText, whole]
  simp [gap, compactFrom]

theorem compactText_spaced {w : Token} (hw : w.kind = .whitespace) (h : Compacts ts text) :
    compactText (w :: ts) = text := by
  obtain ⟨c, _, read⟩ := h none true
  have whole := read []
  rw [List.append_nil] at whole
  rw [compactText, compactFrom, if_pos hw, whole]
  simp [gap, compactFrom]

theorem solid {unit : List Piece} (h : ∀ p ∈ unit, p.Solid) (hne : unit ≠ []) (hc : Carries ts unit) :
    Compacts ts (spelling unit) := by
  induction unit generalizing ts with
  | nil => exact absurd rfl hne
  | cons p unit ih =>
      obtain ⟨t, more, rfl, kind, lexeme, -, carries⟩ := hc.cons
      have first := token (h p (by simp)) kind lexeme
      rw [spelling_cons]
      cases unit with
      | nil =>
          obtain rfl := carries.nil
          simpa [spelling] using first
      | cons q unit => exact first.append (ih (fun r hr => h r (by simp [hr])) (by simp) carries)

theorem phrase {units : List (List Piece)} (h : ∀ unit ∈ units, IsUnit unit) (hne : units ≠ [])
    (hc : Carries ts (phrase units)) : Compacts ts (spelling (Css.phrase units)) := by
  induction units generalizing ts with
  | nil => exact absurd rfl hne
  | cons unit more ih =>
      have first := h unit (by simp)
      cases more with
      | nil => exact solid first.solid first.some hc
      | cons next more =>
          obtain ⟨before, behind, rfl, carries, carries'⟩ := hc.append
          obtain ⟨w, later, rfl, kind, -, -, carries'⟩ := carries'.cons
          rw [Css.phrase, spelling_append, spelling_cons]
          exact (solid first.solid first.some carries).spaced kind
            (ih (fun u hu => h u (by simp [hu])) (by simp) carries')

end Compacts

/-! Words, and words marked as classes and ids. -/

theorem solid_last {kind : TokenKind} {word : List Char} (ahead : List Char) (hl : kind.IsLeaf)
    (hk : kind ≠ .whitespace ∧ kind ≠ .comma ∧ kind ≠ .semicolon) (h : isIdentifier word = true) :
    Piece.Solid ⟨kind, ahead ++ word⟩ := by
  refine ⟨hl, hk.1, hk.2.1, hk.2.2, ?_⟩
  have hne : word ≠ [] := by rintro rfl; cases h
  refine ⟨word.getLast hne, by simp [List.getLast?_append, List.getLast?_eq_some_getLast hne], ?_⟩
  intro comma
  exact absurd ((isIdentifier_spec h).1 _ (List.getLast_mem hne)) (by rw [comma]; decide)

theorem Piece.Solid.word {word : List Char} (h : isIdentifier word = true) : (Piece.word word).Solid :=
  solid_last [] ⟨rfl, by simp⟩ (by simp) h

theorem Piece.Solid.hash {word : List Char} (h : isIdentifier word = true) : (Piece.hash word).Solid :=
  solid_last ['#'] ⟨rfl, by simp⟩ (by simp) h

theorem Piece.Solid.delim {c : Char} (h : c ≠ ',') : (Piece.mark (.delim c) c).Solid :=
  ⟨⟨rfl, by simp [Piece.mark]⟩, by simp [Piece.mark], by simp [Piece.mark], by simp [Piece.mark], c, rfl, h⟩

theorem isSpace_of_isWordChar {c : Char} (h : isWordChar c = true) : isSpace c = false := by
  rw [isWordChar_iff] at h
  simp [isSpace, Selector.char_eq_iff]
  omega

theorem IsUnit.word {word : List Char} (h : isIdentifier word = true) : IsUnit [Piece.word word] where
  some := by simp
  solid := by simpa using Piece.Solid.word h
  apart := fun rest hr => ⟨ReadBefore.word h hr, trivial⟩
  start := by
    intro rest
    cases word with
    | nil => cases h
    | cons c word => exact StopsAt.cons (isSpace_of_isWordChar ((isIdentifier_spec h).1 c (by simp)))

theorem IsUnit.hash {word : List Char} (h : isIdentifier word = true) : IsUnit [Piece.hash word] where
  some := by simp
  solid := by simpa using Piece.Solid.hash h
  apart := fun rest hr => ⟨ReadBefore.hash h hr, trivial⟩
  start := fun rest => StopsAt.cons rfl

theorem IsUnit.dotted {word : List Char} (h : isIdentifier word = true) : IsUnit [Piece.dot, Piece.word word] where
  some := by simp
  solid := List.forall_mem_cons.mpr ⟨Piece.Solid.delim (by decide), by simpa using Piece.Solid.word h⟩
  apart := fun rest hr => ⟨by simpa [spelling, Piece.word] using ReadBefore.dot h rest, ReadBefore.word h hr, trivial⟩
  start := fun rest => StopsAt.cons rfl

/-- Words with single spaces between them, as pieces. -/
def wordPieces (words : List String) : List Piece := phrase (words.map fun word => [Piece.word word.toList])

theorem units_words {words : List String} (h : ∀ word ∈ words, isIdentifier word.toList = true) :
    ∀ unit ∈ words.map fun word => [Piece.word word.toList], IsUnit unit := by
  intro unit hu
  obtain ⟨word, hw, rfl⟩ := List.mem_map.mp hu
  exact .word (h word hw)

theorem spelling_wordPieces (words : List String) : spelling (wordPieces words) = (" ".intercalate words).toList := by
  rw [wordPieces, spelling_phrase, String.toList_intercalate, List.map_map]
  congr 2
  funext word
  simp [spelling, Piece.word]

/-- The values that words stand for. -/
def wordValues (words : List String) : List ComponentValue :=
  (words.map fun word => .token (.ident word)).intersperse (.token .whitespace)

theorem wordValues_cons_cons (word next : String) (rest : List String) :
    wordValues (word :: next :: rest) = .token (.ident word) :: .token .whitespace :: wordValues (next :: rest) := rfl

theorem kinds_wordPieces (words : List String) :
    (wordPieces words).map (fun p => ComponentValue.token p.kind) = wordValues words := by
  induction words with
  | nil => rfl
  | cons word rest ih =>
      cases rest with
      | nil => simp [wordPieces, wordValues, phrase, Piece.word]
      | cons next rest =>
          simp only [wordPieces, wordValues, List.map_cons] at ih ⊢
          rw [phrase, List.map_append, List.map_singleton, List.map_cons, ih, List.intersperse_cons_cons]
          simp [Piece.word, Piece.space, Piece.mark]

theorem ofNodes_leaves (ts : List Token) :
    ComponentValue.ofNodes (ts.map .leaf) = ts.map fun t => .token t.kind := by
  induction ts with
  | nil => rfl
  | cons t ts ih => rw [List.map_cons, ComponentValue.ofNodes, ih]; rfl

theorem listTokens_leaves (ts : List Token) : Node.listTokens (ts.map .leaf) = ts := by
  induction ts with
  | nil => rfl
  | cons t ts ih => rw [List.map_cons, Node.listTokens, ih]; rfl

theorem Carries.values {ts : List Token} {pieces : List Piece} (h : Carries ts pieces) :
    ts.map (fun t => ComponentValue.token t.kind) = pieces.map fun p => ComponentValue.token p.kind := by
  have := congrArg (List.map fun (k, _, _) => ComponentValue.token k) h
  simpa [List.map_map, Function.comp_def] using this

/-! Preludes. -/

/-- The nodes behind the name of an at-rule, whose text is the given prelude, also when white space is left aside. -/
def IsPrelude (prelude : String) (nodes : List Node) : Prop :=
  (∀ n ∈ nodes, InPrelude n) ∧ textOf nodes.reverse = prelude ∧
    ComponentValue.spaced (ComponentValue.ofNodes nodes) = prelude

/-- A prelude behind the name of an at-rule, with a space before it unless it is empty. -/
def spacedPrelude (prelude : String) : String := if prelude = "" then "" else " " ++ prelude

theorem intercalate_ne_empty {words : List String} (h : ∀ word ∈ words, word ≠ "") (hne : words ≠ []) :
    " ".intercalate words ≠ "" := by
  cases words with
  | nil => exact absurd rfl hne
  | cons word rest =>
      have first : word.toList ≠ [] := by simpa using h word (by simp)
      rw [ne_eq, ← String.toList_eq_nil_iff, String.toList_intercalate, List.map_cons]
      cases rest with
      | nil => simpa using first
      | cons next rest => simp [List.intercalate_cons_cons, first]

theorem identifier_ne_empty {word : String} (h : isIdentifier word.toList = true) : word ≠ "" := by
  rintro rfl
  cases h

theorem spaced_wordValues (words : List String) : ComponentValue.spaced (wordValues words) = " ".intercalate words := by
  have visible : (wordValues words).filter (!·.isWhitespace) = words.map fun word => .token (.ident word) := by
    induction words with
    | nil => rfl
    | cons word rest ih =>
        cases rest with
        | nil => simp [wordValues, ComponentValue.isWhitespace]
        | cons next rest =>
            rw [wordValues_cons_cons, List.filter_cons_of_pos rfl,
              List.filter_cons_of_neg (by simp [ComponentValue.isWhitespace]), ih]
            rfl
  have texts : (words.map fun word => ComponentValue.token (.ident word)).map ComponentValue.text = words := by
    rw [List.map_map]
    exact List.map_id words
  rw [ComponentValue.spaced, visible, texts]

theorem written_prelude {words : List String} (h : ∀ word ∈ words, isIdentifier word.toList = true) :
    Written (spacedPrelude (" ".intercalate words)).toList WordEnd (IsPrelude (" ".intercalate words)) := by
  by_cases hne : words = []
  · subst hne
    refine ⟨[], rfl, fun _ _ => trivial, fun ts carries => ⟨[], ?_, by simp, rfl, rfl⟩⟩
    rw [carries.nil]
    exact .nil
  · have units := units_words h
    have some : words.map (fun word => [Piece.word word.toList]) ≠ [] := by simpa using hne
    have text : (spacedPrelude (" ".intercalate words)).toList = spelling (Piece.space :: wordPieces words) := by
      rw [spacedPrelude, if_neg (intercalate_ne_empty (fun w hw => identifier_ne_empty (h w hw)) hne), spelling_cons, spelling_wordPieces, String.toList_append]
      rfl
    rw [text]
    refine (Written.leaves ?_ ?_).mono (fun _ hr => hr) ?_
    · exact List.forall_mem_cons.mpr ⟨⟨rfl, by simp [Piece.space, Piece.mark]⟩, fun p hp => (phrase_kinds units p hp).1⟩
    · exact fun rest hr => ⟨ReadBefore.space (phrase_start units some rest), phrase_apart units hr⟩
    · rintro nodes ⟨ts, carries, rfl⟩
      have kinds : ∀ t ∈ ts, t.kind ≠ .semicolon := carries.forall_kind (· ≠ .semicolon)
        (List.forall_mem_cons.mpr ⟨by simp [Piece.space, Piece.mark], fun p hp => (phrase_kinds units p hp).2.2⟩)
      refine ⟨?_, ?_, ?_⟩
      · intro n hn
        obtain ⟨t, ht, rfl⟩ := List.mem_map.mp hn
        exact ⟨rfl, by simpa [Node.kind?] using kinds t ht⟩
      · obtain ⟨w, more, rfl, kind, -, -, carries⟩ := carries.cons
        have compact := (Compacts.phrase units some carries).compactText_spaced kind
        rw [textOf, List.reverse_reverse, listTokens_leaves, compact, ← wordPieces, spelling_wordPieces,
          String.ofList_toList]
      · rw [ofNodes_leaves, carries.values, List.map_cons, kinds_wordPieces]
        exact spaced_wordValues words

/-! Values of declarations. -/

/-- The nodes behind the colon of a declaration. -/
def IsValue (d : Declaration) (nodes : List Node) : Prop :=
  (∀ n ∈ nodes, n.kind? ≠ some .semicolon) ∧ (∀ n ∈ nodes.head?, n.kind? ≠ some .whitespace) ∧
    ∀ line, declaration d.name line nodes.reverse = { d with line := line }

theorem beforeImportant_none {values : List ComponentValue} (h : ∀ v ∈ values, v ≠ .token (.delim '!')) :
    beforeImportant values = none := by
  have visible : ∀ v ∈ dropWhitespace values, v ≠ .token (.delim '!') := fun v hv =>
    h v ((List.dropWhile_sublist _).subset hv)
  unfold beforeImportant
  split
  · next rest e =>
      unfold beforeImportantWord at e
      split at e
      · next word more same =>
          split at e
          · have inner : ComponentValue.token (.delim '!') ∈ dropWhitespace more := by
              rw [Option.some.inj e]
              simp
            have mem := (List.dropWhile_sublist _).subset inner
            exact absurd rfl (visible _ (by rw [same]; exact List.mem_cons_of_mem _ mem))
          · cases e
      · cases e
  · rfl

theorem wordValues_ne_bang (words : List String) : ∀ v ∈ wordValues words, v ≠ .token (.delim '!') := by
  induction words with
  | nil => simp [wordValues]
  | cons word rest ih =>
      cases rest with
      | nil => simp [wordValues]
      | cons next rest =>
          rw [wordValues_cons_cons]
          exact List.forall_mem_cons.mpr ⟨by simp, List.forall_mem_cons.mpr ⟨by simp, ih⟩⟩

theorem wordValues_getLast? (words : List String) :
    ∀ v, (wordValues words).getLast? = some v → v.isWhitespace = false := by
  induction words with
  | nil => simp [wordValues]
  | cons word rest ih =>
      cases rest with
      | nil =>
          intro v hv
          obtain rfl : ComponentValue.token (.ident word) = v := by simpa [wordValues] using hv
          rfl
      | cons next rest =>
          intro v hv
          have some : wordValues (next :: rest) ≠ [] := by cases rest <;> simp [wordValues]
          rw [wordValues_cons_cons, List.getLast?_cons_cons, ← List.singleton_append,
            List.getLast?_append_of_ne_nil _ some] at hv
          exact ih v hv

/-- The last value is no white space. -/
theorem dropWhitespace_wordValues (words : List String) :
    dropWhitespace (wordValues words).reverse = (wordValues words).reverse := by
  have last := wordValues_getLast? words
  rw [← List.head?_reverse] at last
  unfold dropWhitespace
  cases reversed : (wordValues words).reverse with
  | nil => rfl
  | cons v more =>
      rw [reversed] at last
      rw [List.dropWhile_cons, last v rfl]
      simp

/-- A text is cut at its last exclamation mark, and then back to the last character that is no blank. -/
theorem beforeLastBang_append {text blanks behind : List Char} (h : ∀ c ∈ blanks, Text.isBlank c = true) (free : '!' ∉ behind) :
    beforeLastBang (text ++ (blanks ++ '!' :: behind)) = Text.trimEnd text := by
  have ahead : ∀ c ∈ behind.reverse, decide (c ≠ '!') = true := by
    intro c hc
    rw [decide_eq_true_eq]
    rintro rfl
    exact free (List.mem_reverse.mp hc)
  rw [beforeLastBang, if_pos (by simp), ← List.append_assoc, List.reverse_append, List.reverse_cons, List.append_assoc,
    List.dropWhile_append_of_pos ahead, List.singleton_append, List.dropWhile_cons_of_neg (by simp), List.drop_one,
    List.tail_cons, List.reverse_reverse, Text.trimEnd_append h]

theorem words_getLast? {words : List String} (h : ∀ word ∈ words, isIdentifier word.toList = true) :
    ∀ c, (" ".intercalate words).toList.getLast? = some c → Text.isBlank c = false := by
  induction words with
  | nil => simp
  | cons word rest ih =>
      cases rest with
      | nil =>
          intro c hc
          rw [String.intercalate_singleton] at hc
          exact Selector.isBlank_of_isWordChar ((isIdentifier_spec (h word (by simp))).1 c (List.mem_of_getLast? hc))
      | cons next rest =>
          intro c hc
          have later : ∀ word ∈ next :: rest, isIdentifier word.toList = true := fun w hw => h w (by simp [hw])
          have some : (" ".intercalate (next :: rest)).toList ≠ [] := by
            rw [ne_eq, String.toList_eq_nil_iff]
            exact intercalate_ne_empty (fun w hw => identifier_ne_empty (later w hw)) (by simp)
          rw [String.intercalate_cons_cons, String.toList_append, List.getLast?_append_of_ne_nil _ some] at hc
          exact ih later c hc

theorem compactText_words {words : List String} (h : ∀ word ∈ words, isIdentifier word.toList = true) {ts : List Token}
    (hc : Carries ts (wordPieces words)) : compactText ts = (" ".intercalate words).toList := by
  by_cases hne : words = []
  · subst hne
    rw [hc.nil]
    rfl
  · rw [← spelling_wordPieces]
    exact (Compacts.phrase (units_words h) (by simpa using hne) hc).compactText_eq

/-- The mark behind a value. -/
def importantPieces : List Piece := [Piece.bang, Piece.word "important".toList]

theorem importantPieces_solid : ∀ p ∈ importantPieces, p.Solid :=
  List.forall_mem_cons.mpr ⟨Piece.Solid.delim (by decide), by simpa using Piece.Solid.word (by decide)⟩

theorem compactText_important {words : List String} (h : ∀ word ∈ words, isIdentifier word.toList = true)
    {before behind : List Token} (hb : Carries before (wordPieces words)) (hi : Carries behind importantPieces) :
    compactText (before ++ behind) = (" ".intercalate words).toList ++ "!important".toList := by
  have mark : Compacts behind "!important".toList := Compacts.solid importantPieces_solid (by simp [importantPieces]) hi
  by_cases hne : words = []
  · subst hne
    rw [hb.nil]
    exact mark.compactText_eq
  · rw [← spelling_wordPieces]
    exact ((Compacts.phrase (units_words h) (by simpa using hne) hb).append mark).compactText_eq

theorem ofNodes_reverse (ts : List Token) : ComponentValue.ofNodes (ts.map Node.leaf).reverse =
    (ts.map fun t => ComponentValue.token t.kind).reverse := by
  rw [← List.map_reverse, ofNodes_leaves, List.map_reverse]

theorem declaration_plain {words : List String} (h : ∀ word ∈ words, isIdentifier word.toList = true) {ts : List Token}
    (hc : Carries ts (wordPieces words)) (name : String) (line : Nat) :
    declaration name line (ts.map Node.leaf).reverse =
      ⟨name, wordValues words, " ".intercalate words, false, line⟩ := by
  have noMark : beforeImportant (wordValues words).reverse = none :=
    beforeImportant_none fun v hv => wordValues_ne_bang words v (List.mem_reverse.mp hv)
  rw [declaration]
  simp only [ofNodes_reverse, hc.values, kinds_wordPieces, noMark, List.reverse_reverse, listTokens_leaves,
    compactText_words h hc, dropWhitespace_wordValues, String.ofList_toList]

theorem declaration_important {words : List String} (h : ∀ word ∈ words, isIdentifier word.toList = true)
    {before behind : List Token} (hb : Carries before (wordPieces words)) (hi : Carries behind importantPieces)
    (name : String) (line : Nat) :
    declaration name line ((before ++ behind).map Node.leaf).reverse =
      ⟨name, wordValues words, " ".intercalate words, true, line⟩ := by
  let marked : List ComponentValue := wordValues words ++ [.token (.delim '!'), .token (.ident "important")]
  have values : (before ++ behind).map (fun t => ComponentValue.token t.kind) = marked := by
    rw [List.map_append, hb.values, hi.values, kinds_wordPieces]
    rfl
  have mark : beforeImportant marked.reverse = some (wordValues words).reverse := by
    have lower : "important".toLower = "important" := Selector.toLower_eq_self_of_all (by decide)
    simp [marked, beforeImportant, dropWhitespace, beforeImportantWord, ComponentValue.isWhitespace, lower]
  have text : beforeLastBang ((" ".intercalate words).toList ++ "!important".toList) = (" ".intercalate words).toList := by
    have cut : beforeLastBang ((" ".intercalate words).toList ++ ([] ++ '!' :: "important".toList)) = _ :=
      beforeLastBang_append (by simp) (by decide)
    exact cut.trans (Text.trimEnd_eq_self (words_getLast? h))
  rw [declaration]
  simp only [ofNodes_reverse, values, mark, List.reverse_reverse, listTokens_leaves, compactText_important h hb hi, text,
    dropWhitespace_wordValues, String.ofList_toList]

theorem wordPieces_kinds {words : List String} (h : ∀ word ∈ words, isIdentifier word.toList = true) :
    ∀ p ∈ wordPieces words, p.kind.IsLeaf ∧ p.kind ≠ .semicolon :=
  fun p hp => ⟨(phrase_kinds (units_words h) p hp).1, (phrase_kinds (units_words h) p hp).2.2⟩

theorem wordPieces_head (words : List String) : ∀ p ∈ (wordPieces words).head?, p.kind ≠ .whitespace := by
  match words with
  | [] => simp [wordPieces, phrase]
  | [word] => simp [wordPieces, phrase, Piece.word]
  | word :: next :: rest => simp [wordPieces, phrase, Piece.word]

theorem isValue_leaves {d : Declaration} {pieces : List Piece} {ts : List Token} (hc : Carries ts pieces)
    (hs : ∀ p ∈ pieces, p.kind ≠ .semicolon) (hw : ∀ p ∈ pieces.head?, p.kind ≠ .whitespace)
    (hd : ∀ line, declaration d.name line (ts.map Node.leaf).reverse = { d with line := line }) :
    IsValue d (ts.map .leaf) := by
  refine ⟨?_, ?_, hd⟩
  · intro n hn
    obtain ⟨t, ht, rfl⟩ := List.mem_map.mp hn
    simpa [Node.kind?] using hc.forall_kind (· ≠ .semicolon) hs t ht
  · cases pieces with
    | nil =>
        obtain rfl := hc.nil
        simp
    | cons p pieces =>
        obtain ⟨t, more, rfl, kind, -, -, -⟩ := hc.cons
        simpa [Node.kind?, kind] using hw p rfl

/-- The value of a declaration and its mark, in front of what ends a word. -/
theorem written_value {words : List String} (h : ∀ word ∈ words, isIdentifier word.toList = true) (name : String)
    (important : Bool) (line : Nat) :
    Written (" ".intercalate words ++ if important then "!important" else "").toList WordEnd
      (IsValue ⟨name, wordValues words, " ".intercalate words, important, line⟩) := by
  have kinds := wordPieces_kinds h
  have head := wordPieces_head words
  cases important with
  | false =>
      have text : (" ".intercalate words ++ if false then "!important" else "").toList = spelling (wordPieces words) := by
        simp [spelling_wordPieces]
      rw [text]
      refine (Written.leaves (fun p hp => (kinds p hp).1) fun rest hr => phrase_apart (units_words h) hr).mono
        (fun _ hr => hr) ?_
      rintro nodes ⟨ts, carries, rfl⟩
      exact isValue_leaves carries (fun p hp => (kinds p hp).2) head fun line => declaration_plain h carries name line
  | true =>
      have text : (" ".intercalate words ++ if true then "!important" else "").toList =
          spelling (wordPieces words ++ importantPieces) := by
        rw [spelling_append, spelling_wordPieces, if_pos rfl, String.toList_append]
        rfl
      have all : ∀ p ∈ wordPieces words ++ importantPieces, p.kind.IsLeaf ∧ p.kind ≠ .semicolon :=
        List.forall_mem_append.mpr ⟨kinds, fun p hp =>
          ⟨(importantPieces_solid p hp).leaf, (importantPieces_solid p hp).semicolon⟩⟩
      have first : ∀ p ∈ (wordPieces words ++ importantPieces).head?, p.kind ≠ .whitespace := by
        cases same : wordPieces words with
        | nil => simp [importantPieces, Piece.bang, Piece.mark]
        | cons p pieces => simpa [same] using head
      have apart : ∀ rest, WordEnd rest → Apart (wordPieces words ++ importantPieces) rest := by
        intro rest hr
        refine Apart.append (phrase_apart (units_words h) (StopsAt.cons (by decide))) ⟨ReadBefore.bang _, ?_, trivial⟩
        exact ReadBefore.word (by decide) hr
      rw [text]
      refine (Written.leaves (fun p hp => (all p hp).1) apart).mono (fun _ hr => hr) ?_
      rintro nodes ⟨ts, carries, rfl⟩
      obtain ⟨before, behind, rfl, value, mark⟩ := carries.append
      exact isValue_leaves carries (fun p hp => (all p hp).2) first fun line =>
        declaration_important h value mark name line

end StyleAudit.Css
