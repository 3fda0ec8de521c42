import StyleAudit.Proofs.InsertedComments
/-!
Tokens in a row. Where no comment stands between tokens, the text behind a token is that of the tokens behind it, and each is
read in front of that.
-/
namespace StyleAudit.Css

open Text (Scan)

/-! What a token begins with. -/

/-- What a token can be that begins with no character that is a token by itself, no white space and no quote. -/
def isPlainKind : TokenKind → Bool
  | .whitespace | .string _ | .badString | .comma | .colon | .semicolon | .opening _ | .closing _ | .endOfSource => false
  | _ => true

section
variable {c : Char} {rest : List Char}

theorem isPlainKind_numericToken (text : List Char) : isPlainKind (numericToken text).value = true := by
  unfold numericToken
  simp only
  split
  · rfl
  · split <;> rfl

theorem isPlainKind_identToken (text : List Char) : isPlainKind (identToken text).value = true := by
  unfold identToken
  simp only
  split
  · split
    · rw [Scan.behind_value, urlToken.eq_def, id]
      split
      · rfl
      · rfl
      · rw [Scan.behind_value]
        split <;> rfl
    · rfl
  · rfl

theorem isPlainKind_token (plain : IsPlain c) : isPlainKind (token c rest).value = true := by
  unfold token
  rw [plain.mark]
  simp only
  rw [if_neg plain.space, if_neg plain.quote]
  split
  · exact isPlainKind_numericToken _
  · split
    · rfl
    · split
      · rfl
      · split
        · rfl
        · split
          · rfl
          · split
            · exact isPlainKind_identToken _
            · rfl

/-- A token is a mark, white space, a string, or something that begins like none of these. -/
theorem token_begins (c : Char) (rest : List Char) :
    (∃ kind, punctuation? c = some kind ∧ token c rest = ⟨kind, 1⟩) ∨
      (isSpace c = true ∧ token c rest = ⟨.whitespace, 1 + spaces rest⟩) ∨
      ((c = '"' ∨ c = '\'') ∧ token c rest = stringToken c rest) ∨ (IsPlain c ∧ isPlainKind (token c rest).value = true) := by
  cases mark : punctuation? c with
  | some kind => exact .inl ⟨kind, rfl, token_mark mark⟩
  | none =>
      by_cases space : isSpace c = true
      · exact .inr (.inl ⟨space, token_space mark space⟩)
      · by_cases quote : c = '"' ∨ c = '\''
        · exact .inr (.inr (.inl ⟨quote, token_quote quote⟩))
        · exact .inr (.inr (.inr ⟨⟨mark, space, quote⟩, isPlainKind_token ⟨mark, space, quote⟩⟩))

theorem stringToken_value (quote : Char) (text : List Char) :
    (∃ value, (stringToken quote text).value = .string value) ∨ (stringToken quote text).value = .badString := by
  rw [stringToken, Scan.behind_value]
  split
  · exact .inl ⟨_, rfl⟩
  · exact .inr rfl

theorem punctuation?_comma (h : punctuation? c = some .comma) : c = ',' := by
  unfold punctuation? at h
  split at h <;> first | rfl | cases h

theorem punctuation?_visible {kind : TokenKind} (h : punctuation? c = some kind) : isSpace c = false ∧ kind ≠ .whitespace := by
  unfold punctuation? at h
  split at h <;> first | (cases h; exact ⟨rfl, by simp⟩) | cases h

theorem token_comma (h : (token c rest).value = .comma) : c = ',' := by
  rcases token_begins c rest with ⟨kind, mark, same⟩ | ⟨-, same⟩ | ⟨-, same⟩ | ⟨-, plain⟩
  · rw [same] at h
    exact punctuation?_comma (mark.trans (congrArg some h))
  · rw [same] at h
    cases h
  · rw [same] at h
    rcases stringToken_value c rest with ⟨value, string⟩ | string <;> rw [string] at h <;> cases h
  · rw [h] at plain
    cases plain

theorem token_whitespace_iff : (token c rest).value = .whitespace ↔ isSpace c = true := by
  rcases token_begins c rest with ⟨kind, mark, same⟩ | ⟨space, same⟩ | ⟨quote, same⟩ | ⟨plain, kind⟩
  · obtain ⟨visible, other⟩ := punctuation?_visible mark
    rw [same, visible]
    exact ⟨fun h => absurd h other, nofun⟩
  · rw [same, space]
    exact ⟨fun _ => rfl, fun _ => rfl⟩
  · have visible : isSpace c = false := by rcases quote with rfl | rfl <;> rfl
    rw [same, visible]
    refine ⟨fun h => ?_, nofun⟩
    rcases stringToken_value c rest with ⟨value, string⟩ | string <;> rw [string] at h <;> cases h
  · refine ⟨fun h => ?_, fun space => absurd space plain.space⟩
    rw [h] at kind
    cases kind

/-- A token that is a name, perhaps with the bracket of a function. -/
def TokenKind.isNamed : TokenKind → Bool
  | .ident _ | .function _ => true
  | _ => false

theorem token_named (h : (token c rest).value.isNamed = true) :
    token c rest = identToken (c :: rest) := by
  rcases token_begins c rest with ⟨kind, mark, same⟩ | ⟨space, same⟩ | ⟨quote, same⟩ | ⟨plain, -⟩
  · rw [same] at h
    unfold punctuation? at mark
    split at mark <;> cases mark <;> cases h
  · rw [same] at h
    cases h
  · rw [same] at h
    rcases stringToken_value c rest with ⟨value, string⟩ | string <;> rw [string] at h <;> cases h
  · unfold token at h ⊢
    rw [plain.mark] at h ⊢
    simp only at h ⊢
    rw [if_neg plain.space, if_neg plain.quote] at h ⊢
    split at h
    · unfold numericToken at h
      simp only at h
      split at h
      · cases h
      · split at h <;> cases h
    next number =>
    rw [if_neg number]
    split at h
    · cases h
    next closing =>
    rw [if_neg closing]
    split at h
    · cases h
    next opening =>
    rw [if_neg opening]
    split at h
    · cases h
    next hash =>
    rw [if_neg hash]
    split at h
    · cases h
    next keyword =>
    rw [if_neg keyword]
    split at h
    · next ident => rw [if_pos ident]
    · cases h

theorem urlToken_function {spelling text : List Char} {name : String} (h : (urlToken spelling text).value = .function name) :
    (urlToken spelling text).size = 0 ∧
      ∃ quote, (text.dropWhile isSpace).head? = some quote ∧ (quote = '"' ∨ quote = '\'') := by
  unfold urlToken at h ⊢
  split at h
  · next same => exact ⟨rfl, _, by rw [same]; rfl, .inl rfl⟩
  · next same => exact ⟨rfl, _, by rw [same]; rfl, .inr rfl⟩
  · rw [Scan.behind_value] at h
    split at h <;> cases h

/-- The function `url(` is read only in front of a quoted address. -/
theorem address_quoted {more : List Char} {name : String} (size : (token c (more ++ rest)).size = 1 + more.length)
    (function : (token c (more ++ rest)).value = .function name) (url : name.toLower = "url") :
    ∃ quote, (rest.dropWhile isSpace).head? = some quote ∧ (quote = '"' ∨ quote = '\'') := by
  rw [token_named (by rw [function]; rfl)] at size function
  by_cases paren : ((c :: (more ++ rest)).drop (Css.name (c :: (more ++ rest))).size).head? = some '('
  · obtain ⟨behind, opens⟩ := List.head?_eq_some_iff.mp paren
    rw [identToken_opens opens] at size function
    split at function
    · next spelled =>
        rw [if_pos spelled] at size
        obtain ⟨none, quote, first, mark⟩ := urlToken_function function
        rw [Scan.behind_size, none] at size
        have length : (Css.name (c :: (more ++ rest))).size + 1 = (c :: more).length := by
          rw [List.length_cons]
          omega
        have left : (c :: more ++ rest).drop ((Css.name (c :: (more ++ rest))).size + 1) = behind := by
          rw [← List.drop_drop, List.cons_append, opens, List.drop_one, List.tail_cons]
        rw [length, List.drop_left] at left
        exact ⟨quote, left ▸ first, mark⟩
    · next other =>
        obtain rfl := TokenKind.function.inj function
        exact absurd (toLower_ofList_eq.mp url) other
  · rw [identToken_plain paren] at function
    cases function

end

/-! Pieces that are read in a row. -/

/-- Pieces that are read one right behind the other in front of a text. -/
def InRow : List Piece → List Char → Prop
  | [], _ => True
  | p :: ps, rest => p.IsRead (spelling ps ++ rest) ∧ InRow ps rest

theorem inRow_append {ps qs : List Piece} {rest : List Char} :
    InRow (ps ++ qs) rest ↔ InRow ps (spelling qs ++ rest) ∧ InRow qs rest := by
  induction ps with
  | nil => simp [InRow]
  | cons p ps ih => rw [List.cons_append, InRow, InRow, ih, spelling_append, List.append_assoc, and_assoc]

section
variable {p : Piece} {rest : List Char}

theorem Piece.IsRead.nonempty (h : p.IsRead rest) : p.lexeme ≠ [] := by
  obtain ⟨c, more, same, -⟩ := h.token
  rw [same]
  exact List.cons_ne_nil c more

/-- A piece with something behind it is read from just as many characters as it has. -/
theorem Piece.IsRead.size (h : p.IsRead rest) (some : rest ≠ []) {c : Char} {more : List Char} (same : p.lexeme = c :: more) :
    Css.token c (more ++ rest) = ⟨p.kind, 1 + more.length⟩ := by
  obtain ⟨d, more', same', kind, taken⟩ := h.token
  obtain ⟨rfl, rfl⟩ := List.cons.inj (same'.symm.trans same)
  have length := congrArg List.length taken
  have long := List.length_pos_of_ne_nil some
  rw [List.length_take, List.length_append, same, List.length_cons] at length
  have size : (Css.token d (more' ++ rest)).size = 1 + more'.length := by omega
  rw [← kind, ← size]

end

theorem InRow.isRead {ps : List Piece} {rest : List Char} (row : InRow ps rest) {p : Piece} (hp : p ∈ ps) :
    ∃ behind, p.IsRead behind := by
  obtain ⟨before, after, rfl⟩ := List.append_of_mem hp
  exact ⟨_, (inRow_append.mp row).2.1⟩

/-- What a token is and how it is spelled, wherever it stands. -/
def Token.piece (t : Token) : Piece := ⟨t.kind, t.lexeme⟩

/-- The tokens of pieces one right behind the other, from a place on. -/
def placed (place : Place) : List Piece → List Token
  | [] => []
  | p :: ps => ⟨p.kind, place, p.lexeme⟩ :: placed (place.after p.lexeme) ps

theorem placed_append (place : Place) (ps qs : List Piece) :
    placed place (ps ++ qs) = placed place ps ++ placed (place.after (spelling ps)) qs := by
  induction ps generalizing place with
  | nil => rfl
  | cons p ps ih => rw [List.cons_append, placed, placed, ih, spelling_cons, Place.after_append, List.cons_append]

theorem pieces_placed (place : Place) (ps : List Piece) : (placed place ps).map Token.piece = ps := by
  induction ps generalizing place with
  | nil => rfl
  | cons p ps ih => rw [placed, List.map_cons, ih, Token.piece]

/-- Pieces in a row are the tokens of the text they spell. -/
theorem tokensFrom_row {ps : List Piece} (h : InRow ps []) (place : Place) :
    tokensFrom place (spelling ps) = placed place ps ++ [⟨.endOfSource, place.after (spelling ps), []⟩] := by
  induction ps generalizing place with
  | nil => exact tokensFrom_nil place
  | cons p ps ih =>
      obtain ⟨first, later⟩ := h
      rw [List.append_nil] at first
      rw [spelling_cons, first.tokensFrom, ih later, placed, Place.after_append, List.cons_append]

theorem kinds_pieces (ts : List Token) : (ts.map Token.piece).map Piece.kind = ts.map Token.kind := by
  rw [List.map_map]
  rfl

/-- The kinds of the tokens of pieces in a row. -/
theorem kinds_inRow {ps : List Piece} (h : InRow ps []) (place : Place) :
    (tokensFrom place (spelling ps)).map Token.kind = ps.map Piece.kind ++ [.endOfSource] := by
  rw [tokensFrom_row h, List.map_append, ← kinds_pieces, pieces_placed]
  rfl

/-! What a piece of a kind is spelled like. -/

section
variable {p : Piece} {ps : List Piece} {rest : List Char}

theorem Piece.IsRead.comma (h : p.IsRead rest) (kind : p.kind = .comma) : p.lexeme = [','] := by
  obtain ⟨c, more, same, value, taken⟩ := h.token
  obtain rfl := token_comma (value.trans kind)
  rw [← taken, same]
  rfl

theorem Piece.IsRead.head (h : p.IsRead rest) :
    ∃ c more, p.lexeme = c :: more ∧ (p.kind = .whitespace ↔ isSpace c = true) := by
  obtain ⟨c, more, same, value, -⟩ := h.token
  exact ⟨c, more, same, value ▸ token_whitespace_iff⟩

/-- White space is read up to where it ends. -/
theorem Piece.IsRead.blank (h : p.IsRead rest) (kind : p.kind = .whitespace) :
    (p.lexeme ++ rest).dropWhile isSpace = rest ∧ startsSpace rest = false := by
  obtain ⟨c, more, same, value, taken⟩ := h.token
  have space := token_whitespace_iff.mp (value.trans kind)
  have mark : punctuation? c = none := by
    cases mark : punctuation? c with
    | none => rfl
    | some kind => exact absurd space (by rw [(punctuation?_visible mark).1]; decide)
  have run := List.takeWhile_append_dropWhile (p := isSpace) (l := more ++ rest)
  rw [same, token_space mark space, List.cons_append, Nat.add_comm, List.take_succ_cons, List.cons.injEq, spaces] at taken
  have all : (more ++ rest).takeWhile isSpace = more :=
    (List.prefix_iff_eq_take.mp (List.takeWhile_prefix isSpace)).trans taken.2
  rw [all] at run
  have left : (more ++ rest).dropWhile isSpace = rest := List.append_cancel_left run
  refine ⟨by rw [same, List.cons_append, List.dropWhile_cons_of_pos space, left], ?_⟩
  rw [← left]
  cases behind : (more ++ rest).dropWhile isSpace with
  | nil => rfl
  | cons d later =>
      have visible := List.head?_dropWhile_not isSpace (more ++ rest)
      rw [behind] at visible
      exact visible

/-- Behind white space there is none. -/
theorem InRow.visible {w u : Piece} (row : InRow (w :: u :: ps) rest) (kind : w.kind = .whitespace) : u.kind ≠ .whitespace := by
  obtain ⟨first, second, -⟩ := row
  obtain ⟨c, more, same, space⟩ := second.head
  have none := (first.blank kind).2
  rw [spelling_cons, same] at none
  intro blank
  have none : isSpace c = false := none
  rw [space.mp blank] at none
  cases none

end

/-! The tokens of a source. -/

/-- A source in which no comment stands between tokens: the texts of its tokens make it up. -/
def IsCommentFree (source : String) : Prop := (tokenize source).flatMap Token.lexeme = normalize source.toList

theorem Laid.length_lexemes {place : Place} {text : List Char} {ts : List Token} (h : Laid place text ts) :
    (ts.flatMap Token.lexeme).length ≤ text.length := by
  induction h with
  | stop => exact Nat.zero_le _
  | token _ _ _ _ ih =>
      rw [List.flatMap_cons]
      simp only [List.length_append] at ih ⊢
      omega

theorem spelling_pieces (ts : List Token) : spelling (ts.map Token.piece) = ts.flatMap Token.lexeme := by
  rw [spelling, List.flatMap_map]
  rfl

/-- Without a slash at its beginning a text begins with no comment. -/
theorem slash_or_bare (text : List Char) : (∃ rest, text = '/' :: rest) ∨ comments text = 0 := by
  cases text with
  | nil => exact .inr (by simp [comments])
  | cons c rest =>
      by_cases slash : c = '/'
      · exact .inl ⟨rest, by rw [slash]⟩
      · exact .inr (comments_of_first slash rest)

/-- The first of several tokens of a text: it stands behind the comments there, and is read in front of the text that the
others are read from. -/
theorem tokensFrom_cons {place : Place} {text : List Char} {t : Token} {ts : List Token}
    (tokens : tokensFrom place text = t :: ts) (later : ts ≠ []) :
    ∃ rest, text = text.take (comments text) ++ (t.lexeme ++ rest) ∧ t.place = place.after (text.take (comments text)) ∧
      t.piece.IsRead rest ∧ ts = tokensFrom (t.place.after t.lexeme) rest := by
  cases first : text.drop (comments text) with
  | nil =>
      rw [tokensFrom_end first] at tokens
      exact absurd (List.cons.inj tokens).2.symm later
  | cons c rest =>
      have whole := List.take_append_drop (comments text) text
      have cut := List.take_append_drop (token c rest).size (c :: rest)
      obtain ⟨n, size⟩ : ∃ n, (token c rest).size = n + 1 := ⟨(token c rest).size - 1, by have := token_size_pos c rest; omega⟩
      rw [tokensFrom_first first] at tokens
      obtain ⟨rfl, rfl⟩ := List.cons.inj tokens
      refine ⟨(c :: rest).drop (token c rest).size, by rw [cut, ← first, whole], rfl, ?_, rfl⟩
      refine ⟨?_, c, rest.take n, by rw [Token.piece, size, List.take_succ_cons], ?_⟩
      · rw [Token.piece, cut, ← first]
        exact comments_behind text
      · rw [Token.piece, cut, size, List.drop_succ_cons, List.take_append_drop]
        exact ⟨rfl, by rw [size]⟩

/-- Every token of a text is read in front of something. -/
theorem exists_isRead {place : Place} {text : List Char} {t : Token} (h : t ∈ tokensFrom place text)
    (inside : t.kind ≠ .endOfSource) : ∃ rest, t.piece.IsRead rest := by
  induction place, text using tokensFrom.induct with
  | case1 place text skipped first =>
      rw [tokensFrom_end first] at h
      exact absurd (congrArg Token.kind (List.mem_singleton.mp h)) inside
  | case2 place text skipped start c rest first u lexeme ih =>
      have tokens := tokensFrom_first first place
      rw [tokens] at h
      rcases List.mem_cons.mp h with rfl | later
      · obtain ⟨behind, -, -, read, -⟩ := tokensFrom_cons tokens (tokensFrom_ne_nil _ _)
        exact ⟨behind, read⟩
      · exact ih later

/-- The first token of a text whose tokens make it up. -/
theorem tokensFrom_free {place : Place} {text : List Char} {t : Token} {ts : List Token}
    (tokens : tokensFrom place text = t :: ts) (later : ts ≠ []) (free : (t :: ts).flatMap Token.lexeme = text) :
    ∃ behind, t.piece.IsRead behind ∧ ts = tokensFrom (place.after t.lexeme) behind ∧ ts.flatMap Token.lexeme = behind := by
  obtain ⟨behind, whole, start, read, rfl⟩ := tokensFrom_cons tokens later
  have laid := (tokensFrom_laid (t.place.after t.lexeme) behind).length_lexemes
  have bare : text.take (comments text) = [] := by
    have length := congrArg List.length whole
    have length' := congrArg List.length free
    rw [List.flatMap_cons, List.length_append] at length'
    rw [List.length_append, List.length_append] at length
    exact List.length_eq_zero_iff.mp (by omega)
  rw [bare, List.nil_append] at whole
  rw [bare, Place.after_nil] at start
  rw [List.flatMap_cons, whole] at free
  exact ⟨behind, read, by rw [start], List.append_cancel_left free⟩

/-- Tokens between which nothing stands are in a row. -/
theorem inRow_tokens {place stop : Place} {text : List Char} {ts : List Token}
    (tokens : tokensFrom place text = ts ++ [⟨.endOfSource, stop, []⟩])
    (free : (tokensFrom place text).flatMap Token.lexeme = text) : InRow (ts.map Token.piece) [] := by
  induction ts generalizing place text with
  | nil => trivial
  | cons t ts ih =>
      rw [tokens] at free
      rw [List.cons_append] at tokens free
      obtain ⟨behind, read, same, left⟩ := tokensFrom_free tokens (by simp) free
      refine ⟨?_, ih same.symm (same ▸ left)⟩
      rw [spelling_pieces, List.append_nil]
      rw [List.flatMap_append, List.flatMap_singleton, List.append_nil] at left
      rwa [left]

/-- What stands behind tokens of a text is read from a text as well. -/
theorem exists_tokensFrom {place : Place} {text : List Char} {ts more : List Token}
    (tokens : tokensFrom place text = ts ++ more) (later : more ≠ []) :
    ∃ place' rest, tokensFrom place' rest = more := by
  induction ts generalizing place text with
  | nil => exact ⟨place, text, tokens⟩
  | cons t ts ih =>
      obtain ⟨rest, -, -, -, same⟩ := tokensFrom_cons tokens (List.append_ne_nil_of_right_ne_nil ts later)
      exact ih same.symm

/-- Tokens that stand side by side in their source. -/
def SideBySide (ts : List Token) : Prop := ts.IsChain fun t u => t.stop = u.start

/-- Tokens side by side in front of others are in a row in front of the text that the others are read from. -/
theorem inRow_sideBySide {place : Place} {text : List Char} {ts more : List Token}
    (tokens : tokensFrom place text = ts ++ more) (later : more ≠ []) (joined : SideBySide ts) :
    ∃ gap rest behind, text = gap ++ (spelling (ts.map Token.piece) ++ rest) ∧ (∀ t ∈ ts.head?, t.place = place.after gap) ∧
      (ts = [] → gap = []) ∧ InRow (ts.map Token.piece) rest ∧ tokensFrom behind rest = more := by
  induction ts generalizing place text with
  | nil => exact ⟨[], text, place, rfl, by simp, fun _ => rfl, trivial, tokens⟩
  | cons t ts ih =>
      obtain ⟨rest, whole, start, read, same⟩ := tokensFrom_cons tokens (List.append_ne_nil_of_right_ne_nil ts later)
      obtain ⟨gap, rest, behind, rfl, first, none, row, tokens⟩ := ih same.symm joined.tail
      have bare : gap = [] := by
        cases ts with
        | nil => exact none rfl
        | cons u us =>
            have next : t.stop = u.start := (List.isChain_cons_cons.mp joined).1
            have stop : (t.place.after t.lexeme).offset = t.stop := rfl
            have length : u.start = (t.place.after t.lexeme).offset + gap.length := by rw [Token.start, first u rfl]; rfl
            exact List.length_eq_zero_iff.mp (by omega)
      subst bare
      refine ⟨text.take (comments text), rest, behind, ?_, ?_, by simp, ⟨read, row⟩, tokens⟩
      · rw [List.map_cons, spelling_cons, List.append_assoc]
        exact whole
      · rintro u ⟨⟩
        exact start

end StyleAudit.Css
