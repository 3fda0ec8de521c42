import StyleAudit.Proofs.SourceReading
/-!
The tokens that a source cursor reads. Strings, addresses and marks are those of the scanners, and so is each token; from one token
to the next the cursor goes through the whole of a source without a fault.
-/
namespace StyleAudit.Css.SourceCursor

variable {source : List Char}

/-! Strings and addresses. -/

/-- The token of a text whose front has been read, from what is read of the rest. -/
def ending (make : String → TokenKind) (bad : TokenKind) (front : List Char) : Option (List Char) → TokenKind
  | some value => make (String.ofList (front ++ value))
  | none => bad

theorem ending_map (make : String → TokenKind) (bad : TokenKind) (front : List Char) (c : Char) (value : Option (List Char)) :
    ending make bad front (value.map (c :: ·)) = ending make bad (front ++ [c]) value := by
  cases value with
  | none => rfl
  | some value => rw [Option.map_some, ending, ending, List.append_cons]

theorem takeString_reads (quote : Char) (text : List Char) :
    Reads source (takeString source quote) text (ending .string .badString [] (string quote text).value)
      (string quote text).size := by
  rw [takeString]
  suffices general : ∀ front, Reads source _ text (ending .string .badString front (string quote text).value)
      (string quote text).size from general []
  intro front
  induction text using string.induct quote generalizing front with
  | case1 =>
      rw [string, ending, List.append_nil]
      exact .ends (.nothing (.done _))
  | case2 rest =>
      rw [string.eq_def]
      simp only [if_true, ending, List.append_nil]
      refine .ends (.last ?_)
      simp only [if_true]
      exact .done _
  | case3 rest other =>
      rw [string.eq_def]
      simp only [if_neg other, if_true]
      refine .ends (.back ?_)
      simp only [if_neg other, if_true]
      exact Reads.putBack (.done _)
  | case4 other line =>
      rw [string.eq_def]
      simp only [if_neg other, if_neg line, if_true, ending, List.append_nil]
      refine Reads.step (z := front) (n := 0) (.last ?_) (.ends (.nothing (.done _)))
      simp only [if_neg other, if_neg line, if_true]
      exact .peek (.done _)
  | case5 rest other line ih =>
      rw [string.eq_def]
      simp only [if_neg other, if_neg line, if_true, Text.Scan.behind_value, Text.Scan.behind_size, id_eq]
      refine .again (.next (n := 1) ?_) (by decide) (by simp) (ih _)
      simp only [if_neg other, if_neg line, if_true]
      refine .peek ?_
      rw [List.head?_cons]
      simp only [if_true]
      exact .one rfl
  | case6 c rest line e other line' ih =>
      rw [string.eq_def]
      simp only [if_neg other, if_neg line', if_neg line, if_true, Text.Scan.behind_value, Text.Scan.behind_size]
      rw [ending_map]
      refine .round (.next ?_) (escaped_le _) (ih _)
      simp only [if_neg other, if_neg line', if_true]
      refine .peek ?_
      rw [List.head?_cons]
      simp only [if_neg line]
      exact .yield (takeEscape_reads _) rfl
  | case7 c rest other line plain ih =>
      rw [string.eq_def]
      simp only [if_neg other, if_neg line, if_neg plain, Text.Scan.behind_value, Text.Scan.behind_size]
      rw [ending_map]
      refine .step (.last ?_) (ih _)
      simp only [if_neg other, if_neg line, if_neg plain]
      exact .done _

theorem takeBadUrl_reads (text : List Char) : Reads source (takeBadUrl source) text () (badUrlRest text) := by
  rw [takeBadUrl]
  induction text using badUrlRest.induct with
  | case1 =>
      rw [badUrlRest]
      exact .ends (.nothing (.done _))
  | case2 rest =>
      rw [badUrlRest, if_pos rfl]
      exact .ends (.one rfl)
  | case3 c rest other escape ih =>
      rw [badUrlRest, if_neg other, if_pos escape]
      refine .round (.next ?_) (escaped_le rest) ih
      simp only [if_neg other]
      refine .peek ?_
      rw [isEscape_head, if_pos escape]
      exact .yield (takeEscape_reads rest) rfl
  | case4 c rest other plain ih =>
      rw [badUrlRest, if_neg other, if_neg plain]
      refine .step (.last ?_) ih
      simp only [if_neg other]
      refine .peek ?_
      rw [isEscape_head, if_neg plain]
      exact .done _

/-- An address that cannot be read, behind what shows that. -/
theorem badUrl_reads (text : List Char) {value : List Char} :
    Reads source (takeBadUrl source >>= fun _ => pure (Turn.done TokenKind.badUrl : Turn (List Char) TokenKind)) text
      (.done (ending .url .badUrl value none)) (badUrlRest text) :=
  .yield (takeBadUrl_reads text) rfl

theorem takeUrlBody_reads (text : List Char) :
    Reads source (takeUrlBody source) text (ending .url .badUrl [] (urlBody text).value) (urlBody text).size := by
  rw [takeUrlBody]
  suffices general : ∀ front, Reads source _ text (ending .url .badUrl front (urlBody text).value) (urlBody text).size from
    general []
  intro front
  induction text using urlBody.induct generalizing front with
  | case1 =>
      rw [urlBody.eq_def]
      simp only [ending, List.append_nil]
      exact .ends (.nothing (.done _))
  | case2 rest =>
      rw [urlBody.eq_def]
      simp only [if_true, ending, List.append_nil]
      exact .ends (.one rfl)
  | case3 c rest other space none =>
      rw [urlBody.eq_def]
      simp only [if_neg other, if_pos space, none, ending, List.append_nil]
      refine .ends (.next ?_)
      simp only [if_neg other, if_pos space]
      refine Reads.followed (n := 0) (takeSpaces_reads rest) List.takeWhile_append_dropWhile (.peek ?_)
      rw [none]
      exact .done _
  | case4 c rest other space more closes =>
      rw [urlBody.eq_def]
      simp only [if_neg other, if_pos space, closes, if_true, ending, List.append_nil, Nat.add_assoc]
      refine .ends (.next ?_)
      simp only [if_neg other, if_pos space]
      refine .followed (takeSpaces_reads rest) List.takeWhile_append_dropWhile (.peek ?_)
      rw [closes]
      exact .one rfl
  | case5 c rest other space d more behind left =>
      rw [urlBody.eq_def]
      simp only [if_neg other, if_pos space, behind, if_neg left, Nat.add_assoc]
      refine .ends (.next ?_)
      simp only [if_neg other, if_pos space]
      refine .followed (takeSpaces_reads rest) List.takeWhile_append_dropWhile (.peek ?_)
      simp only [behind, List.head?_cons, if_neg left]
      exact badUrl_reads _
  | case6 c rest other space bad =>
      rw [urlBody.eq_def]
      simp only [if_neg other, if_neg space, if_pos bad]
      refine .ends (.next ?_)
      simp only [if_neg other, if_neg space, if_pos bad]
      exact badUrl_reads rest
  | case7 rest escape e other space good ih =>
      rw [urlBody.eq_def]
      simp only [if_neg other, if_neg space, if_neg good, if_pos escape, if_true, Text.Scan.behind_value, Text.Scan.behind_size]
      rw [ending_map]
      refine .round (.next ?_) (escaped_le _) (ih _)
      simp only [if_neg other, if_neg space, if_neg good, if_true]
      refine .peek ?_
      rw [isEscape_backslash, if_pos escape]
      exact .yield (takeEscape_reads rest) rfl
  | case8 rest plain other space good =>
      rw [urlBody.eq_def]
      simp only [if_neg other, if_neg space, if_neg good, if_neg plain, if_true]
      refine .ends (.next ?_)
      simp only [if_neg other, if_neg space, if_neg good, if_true]
      refine .peek ?_
      rw [isEscape_backslash, if_neg plain]
      exact badUrl_reads rest
  | case9 c rest other space good plain ih =>
      rw [urlBody.eq_def]
      simp only [if_neg other, if_neg space, if_neg good, if_neg plain, Text.Scan.behind_value, Text.Scan.behind_size]
      rw [ending_map]
      refine .step (.last ?_) (ih _)
      simp only [if_neg other, if_neg space, if_neg good, if_neg plain]
      exact .done _

/-- White space is counted from where there was nothing else up to there. -/
theorem spacesAhead_ahead {place : Place} (front rest : List Char) (h : Ahead source place (front ++ rest)) :
    spacesAhead source front.length place = .ok (front.length + spaces rest, place) := by
  induction rest generalizing front with
  | nil =>
      have size := h.length
      rw [List.append_nil] at size
      rw [spacesAhead, dif_neg fun more => Nat.ne_of_lt more.1 size]
      rfl
  | cons c rest ih =>
      have size := h.length
      have first := h.getElem? front.length
      rw [List.length_append, List.length_cons] at size
      rw [List.getElem?_append_right (Nat.le_refl _), Nat.sub_self, List.getElem?_cons_zero] at first
      by_cases space : isSpace c = true
      · have more := ih (front ++ [c]) (by rwa [List.append_assoc])
        rw [List.length_append, List.length_singleton] at more
        rw [spacesAhead, dif_pos ⟨by omega, by rwa [first]⟩, more, spaces_cons space, Nat.add_assoc]
      · rw [spacesAhead, dif_neg fun more => space (by simpa [first] using more.2), spaces, List.takeWhile_cons_of_neg space]
        rfl

theorem spacesAhead_reads (text : List Char) : Reads source (spacesAhead source 0) text (spaces text) 0 := by
  intro place ahead
  have read := spacesAhead_ahead [] text ahead
  rwa [List.length_nil, Nat.zero_add] at read

theorem getElem?_spaces (text : List Char) : text[spaces text]? = (text.dropWhile isSpace).head? := by
  have whole : text.takeWhile isSpace ++ text.dropWhile isSpace = text := List.takeWhile_append_dropWhile
  have behind : (text.takeWhile isSpace ++ text.dropWhile isSpace)[(text.takeWhile isSpace).length]? = _ :=
    List.getElem?_append_right (Nat.le_refl _)
  rwa [whole, Nat.sub_self, ← List.head?_eq_getElem?] at behind

theorem takeUrl_reads (name text : List Char)
    (plain : ¬ ((text.dropWhile isSpace).head? = some '"' ∨ (text.dropWhile isSpace).head? = some '\'')) :
    Reads source (takeUrl source) text (urlToken name text).value (urlToken name text).size := by
  have read : Reads source _ _ _ _ := takeUrlBody_reads (text.dropWhile isSpace)
  unfold urlToken
  split
  · next same => exact absurd (.inl (by rw [same]; rfl)) plain
  · next same => exact absurd (.inr (by rw [same]; rfl)) plain
  · rw [takeUrl, Text.Scan.behind_value, Text.Scan.behind_size]
    refine .followed (takeSpaces_reads text) List.takeWhile_append_dropWhile ?_
    cases same : (urlBody (text.dropWhile isSpace)).value with
    | none => rwa [same] at read
    | some address => rwa [same] at read

theorem takeIdentLike_reads (text : List Char) :
    Reads source (takeIdentLike source) text (identToken text).value (identToken text).size := by
  rw [takeIdentLike]
  by_cases opens : (text.drop (name text).size).head? = some '('
  · obtain ⟨rest, same⟩ := List.head?_eq_some_iff.mp opens
    rw [identToken_opens same]
    by_cases url : (name text).value.map Char.toLower = ['u', 'r', 'l']
    · rw [if_pos url, Text.Scan.behind_value, Text.Scan.behind_size, Nat.add_assoc]
      refine .bind (takeName_reads text) ?_
      rw [same]
      refine .peek (.next ?_)
      rw [if_pos url]
      refine .looked (spacesAhead_reads rest) (.peekAt _ ?_)
      rw [getElem?_spaces]
      by_cases quoted : (rest.dropWhile isSpace).head? = some '"' ∨ (rest.dropWhile isSpace).head? = some '\''
      · have none : urlToken (name text).value rest = ⟨.function (String.ofList (name text).value), 0⟩ := by
          rcases quoted with double | single
          · exact urlToken_quoted _ double (.inl rfl)
          · exact urlToken_quoted _ single (.inr rfl)
        rw [if_pos quoted, none]
        exact .done _
      · rw [if_neg quoted]
        exact takeUrl_reads _ rest quoted
    · rw [if_neg url]
      refine .bind (takeName_reads text) ?_
      rw [same]
      refine .peek (.last ?_)
      rw [if_neg url]
      exact .done _
  · rw [identToken_plain opens]
    refine Reads.bind (n := 0) (takeName_reads text) (.peek ?_)
    rw [if_neg opens]
    exact .done _

/-! Tokens. -/

theorem startsName_eq (text : List Char) :
    Css.startsName text = (text.head?.any isNameChar || isEscape text.head? text[1]?) := by
  cases text with
  | nil => rfl
  | cons c rest => rw [Css.startsName, ← isEscape_head, List.head?_eq_getElem?, List.getElem?_cons_succ]; rfl

theorem prefix_cons_iff (c : Char) (part text : List Char) : c :: part <+: text ↔ text[0]? = some c ∧ part <+: text.drop 1 := by
  cases text with
  | nil => simp
  | cons d rest => simp [List.cons_prefix_cons, eq_comm (a := c)]

theorem prefix_two (c d : Char) (text : List Char) : [c, d] <+: text ↔ text[0]? = some c ∧ text[1]? = some d := by
  simp [prefix_cons_iff]

theorem prefix_three (c d e : Char) (text : List Char) :
    [c, d, e] <+: text ↔ text[0]? = some c ∧ text[1]? = some d ∧ text[2]? = some e := by
  simp [prefix_cons_iff]

/-- A character that begins one kind of token begins no other. -/
theorem apart {c d : Char} {p : Prop} (h : (c == d) = false) : ¬ (c = d ∧ p) := fun both => ne_of_beq_false h both.1

section
variable (rest : List Char)

/-! Each of these routines starts behind its character, and reads the token that begins with it. -/

theorem takeHash_reads : ReadsBack source (takeHash source) '#' rest (token '#' rest).value (token '#' rest).size := by
  rw [takeHash]
  have plain : IsPlain '#' := ⟨rfl, Bool.false_ne_true, by decide⟩
  by_cases name : Css.startsName rest = true
  · rw [token_hash name]
    refine Reads.onward (.peek (.peekAt 1 ?_))
    rw [← startsName_eq, if_pos name]
    exact .looked (startsName_reads rest) (.yield (takeName_reads rest) rfl)
  · rw [token_delim plain Bool.false_ne_true (apart rfl) (apart rfl) (fun h => name h.2) (apart rfl) Bool.false_ne_true]
    refine Reads.onward (n := 0) (.peek (.peekAt 1 ?_))
    rw [← startsName_eq, if_neg name]
    exact .done _

theorem takeSigned_reads {c : Char} (sign : c = '+' ∨ c = '.') :
    ReadsBack source (takeSigned source c) c rest (token c rest).value (token c rest).size := by
  have plain : IsPlain c := by
    rcases sign with rfl | rfl <;> exact ⟨rfl, Bool.false_ne_true, by decide⟩
  refine Reads.putBack (.looked (startsNumber_reads _) ?_)
  by_cases number : Numeral.starts (c :: rest) = true
  · rw [if_pos number, token_number plain number]
    exact takeNumeric_reads number
  · have delim : token c rest = ⟨.delim c, 1⟩ := by
      rcases sign with rfl | rfl <;>
        exact token_delim plain number (apart rfl) (apart rfl) (apart rfl) (apart rfl) Bool.false_ne_true
    rw [if_neg number, delim]
    exact .one rfl

theorem takeDash_reads : ReadsBack source (takeDash source) '-' rest (token '-' rest).value (token '-' rest).size := by
  have plain : IsPlain '-' := ⟨rfl, Bool.false_ne_true, by decide⟩
  refine Reads.putBack (.looked (startsNumber_reads _) ?_)
  by_cases number : Numeral.starts ('-' :: rest) = true
  · rw [if_pos number, token_number plain number]
    exact takeNumeric_reads number
  rw [if_neg number]
  refine .peekAt 1 (.peekAt 2 ?_)
  simp only [List.getElem?_cons_succ]
  by_cases closing : ['-', '>'] <+: rest
  · rw [if_pos ((prefix_two _ _ _).mp closing), token_closing closing]
    obtain ⟨behind, rfl⟩ := closing
    exact .yield (skip_reads ['-', '-', '>'] behind) rfl
  rw [if_neg (mt (prefix_two _ _ _).mpr closing)]
  refine .looked (startsName_reads _) ?_
  by_cases ident : startsIdent ('-' :: rest) = true
  · rw [if_pos ident, token_ident plain number (fun h => closing h.2) ident]
    exact takeIdentLike_reads _
  · rw [if_neg ident, token_delim plain number (fun h => closing h.2) (apart rfl) (apart rfl) (apart rfl) ident]
    exact .one rfl

theorem takeAngle_reads : ReadsBack source (takeAngle source) '<' rest (token '<' rest).value (token '<' rest).size := by
  rw [takeAngle]
  have plain : IsPlain '<' := ⟨rfl, Bool.false_ne_true, by decide⟩
  by_cases opening : ['!', '-', '-'] <+: rest
  · rw [token_opening opening]
    refine Reads.onward (n := 3) (.peek (.peekAt 1 (.peekAt 2 ?_)))
    rw [List.head?_eq_getElem?, if_pos ((prefix_three _ _ _ _).mp opening)]
    obtain ⟨behind, rfl⟩ := opening
    exact .yield (skip_reads ['!', '-', '-'] behind) rfl
  · rw [token_delim plain Bool.false_ne_true (apart rfl) (fun h => opening h.2) (apart rfl) (apart rfl) Bool.false_ne_true]
    refine Reads.onward (n := 0) (.peek (.peekAt 1 (.peekAt 2 ?_)))
    rw [List.head?_eq_getElem?, if_neg (mt (prefix_three _ _ _ _).mpr opening)]
    exact .done _

theorem takeKeyword_reads : ReadsBack source (takeKeyword source) '@' rest (token '@' rest).value (token '@' rest).size := by
  rw [takeKeyword]
  have plain : IsPlain '@' := ⟨rfl, Bool.false_ne_true, by decide⟩
  by_cases ident : startsIdent rest = true
  · rw [token_keyword ident]
    refine Reads.onward (.looked (startsName_reads rest) ?_)
    rw [if_pos ident]
    exact .yield (takeName_reads rest) rfl
  · rw [token_delim plain Bool.false_ne_true (apart rfl) (apart rfl) (apart rfl) (fun h => ident h.2) Bool.false_ne_true]
    refine Reads.onward (n := 0) (.looked (startsName_reads rest) ?_)
    rw [if_neg ident]
    exact .done _

theorem takeBackslash_reads :
    ReadsBack source (takeBackslash source) '\\' rest (token '\\' rest).value (token '\\' rest).size := by
  have plain : IsPlain '\\' := ⟨rfl, Bool.false_ne_true, by decide⟩
  refine Reads.peekBack ?_
  rw [isEscape_backslash]
  by_cases escape : escapable rest = true
  · rw [if_pos escape, token_ident plain Bool.false_ne_true (apart rfl) escape]
    exact Reads.putBack (takeIdentLike_reads _)
  · rw [if_neg escape, token_delim plain Bool.false_ne_true (apart rfl) (apart rfl) (apart rfl) (apart rfl) escape]
    exact Reads.onward (n := 0) (.done _)

end

theorem takeToken_nothing : Reads source (takeToken source) [] .endOfSource 0 := .nothing (.done _)

theorem takeToken_reads (c : Char) (rest : List Char) :
    Reads source (takeToken source) (c :: rest) (token c rest).value (token c rest).size := by
  rw [takeToken]
  rcases mark : punctuation? c with _ | kind
  case some =>
    rw [token_mark mark]
    unfold punctuation? at mark
    split at mark <;> cases mark <;> exact .one rfl
  refine .back ?_
  by_cases space : isSpace c = true
  · rw [token_space mark space]
    simp only [if_pos space]
    exact Reads.onward (.yield (takeSpaces_reads rest) rfl)
  by_cases quote : c = '"' ∨ c = '\''
  · have value : (stringToken c rest).value = ending .string .badString [] (string c rest).value := by
      rw [stringToken, Text.Scan.behind_value]
      cases (string c rest).value <;> rfl
    rw [token_quote quote, value]
    simp only [if_neg space, if_pos quote]
    exact Reads.onward (takeString_reads c rest)
  have plain : IsPlain c := ⟨mark, space, quote⟩
  simp only [if_neg space, if_neg quote]
  by_cases hash : c = '#'
  · subst hash
    exact takeHash_reads rest
  by_cases sign : c = '+' ∨ c = '.'
  · simp only [if_neg hash, if_pos sign]
    exact takeSigned_reads rest sign
  by_cases dash : c = '-'
  · subst dash
    exact takeDash_reads rest
  by_cases angle : c = '<'
  · subst angle
    exact takeAngle_reads rest
  by_cases keyword : c = '@'
  · subst keyword
    exact takeKeyword_reads rest
  by_cases backslash : c = '\\'
  · subst backslash
    exact takeBackslash_reads rest
  simp only [if_neg hash, if_neg sign, if_neg dash, if_neg angle, if_neg keyword, if_neg backslash]
  rw [not_or] at sign
  have unsigned := starts_unsigned (c := c) (by rintro (rfl | rfl); exacts [sign.1 rfl, dash rfl]) rest
  rw [if_neg sign.2] at unsigned
  by_cases digit : c.isDigit = true
  · rw [token_number plain (unsigned ▸ digit)]
    simp only [if_pos digit]
    exact Reads.putBack (takeNumeric_reads (unsigned ▸ digit))
  have number : ¬ Numeral.starts (c :: rest) = true := unsigned ▸ digit
  by_cases start : isNameStart c = true
  · have ident : startsIdent (c :: rest) = true := by
      rw [startsIdent_of_ne_dash dash, start, Bool.true_or]
    rw [token_ident plain number (fun h => dash h.1) ident]
    simp only [if_neg digit, if_pos start]
    exact Reads.putBack (takeIdentLike_reads _)
  have ident : ¬ startsIdent (c :: rest) = true := by
    rw [startsIdent_of_ne_dash dash]
    simp [start, startsEscape, backslash]
  rw [token_delim plain number (fun h => dash h.1) (fun h => angle h.1) (fun h => hash h.1) (fun h => keyword h.1) ident]
  simp only [if_neg digit, if_neg start, mark]
  exact Reads.onward (n := 0) (.done _)

/-- A round over the comments and the token in front of the cursor. -/
theorem takeTokens_round {place : Place} {text : List Char} (front : List SpannedToken) {kind : TokenKind} {size : Nat}
    (ahead : Ahead source place text) (read : Reads source (takeToken source) (text.drop (comments text)) kind size) :
    takeTokensRound source front place =
      let start := place.after (text.take (comments text))
      let stop := start.after ((text.drop (comments text)).take size)
      let tokens := front ++ [⟨kind, start.offset, stop.offset, start.line⟩]
      .ok (if kind = .endOfSource then .done tokens else .again tokens, stop) := by
  rw [takeTokensRound, bind_ok (takeComments_reads text place ahead), bind_ok (a := _) rfl,
    bind_ok (read _ (ahead.behind _)), bind_ok (a := _) rfl]
  split <;> rfl

/-- The rounds leave the tokens of the text in front of the cursor, with the spans that these have. -/
theorem takeTokens_ahead (place : Place) (text : List Char) (front : List SpannedToken) (ahead : Ahead source place text) :
    loop source (takeTokensRound source) front place =
      .ok (front ++ (tokensFrom place text).map Token.spanned, place.after text) := by
  induction place, text using tokensFrom.induct generalizing front with
  | case1 place text skipped left =>
      have nothing : Reads source (takeToken source) (text.drop (comments text)) .endOfSource 0 := left ▸ takeToken_nothing
      have whole : text.take (comments text) = text := List.take_of_length_le (List.drop_eq_nil_iff.mp left)
      have tokens : tokensFrom place text = [⟨.endOfSource, place.after text, []⟩] := by
        rw [tokensFrom, left, whole]
      have round := takeTokens_round front ahead nothing
      simp only [whole, List.take_zero, Place.after_nil, if_true] at round
      rw [tokens, List.map_singleton]
      exact loop_done round
  | case2 place text skipped start c rest left t lexeme ih =>
      have left : text.drop (comments text) = c :: rest := left
      have notEnd : t.value ≠ .endOfSource := token_ne_endOfSource c rest
      have read : Reads source (takeToken source) (text.drop (comments text)) t.value t.size := left ▸ takeToken_reads c rest
      have tokens : tokensFrom place text =
          ⟨t.value, start, lexeme⟩ :: tokensFrom (start.after lexeme) ((c :: rest).drop t.size) := by
        rw [tokensFrom, left]
      have behind : Ahead source (start.after lexeme) ((c :: rest).drop t.size) := (left ▸ ahead.behind (comments text)).behind t.size
      have whole : text.take (comments text) ++ (lexeme ++ (c :: rest).drop t.size) = text := by
        rw [List.take_append_drop, ← left, List.take_append_drop]
      have forward : place.offset < (start.after lexeme).offset := by
        have positive : 0 < t.size := token_size_pos c rest
        simp only [start, lexeme, Place.after, List.length_take, List.length_cons]
        omega
      have round := takeTokens_round front ahead read
      simp only [if_neg notEnd, left] at round
      have inside : (start.after lexeme).offset ≤ source.length := Nat.le.intro behind.length
      rw [loop_again round ⟨forward, inside⟩, ih _ behind, tokens]
      conv => rhs; rw [← whole, Place.after_append, Place.after_append]
      rw [List.append_assoc]
      rfl

/-- The cursor goes through a normalized source without a fault, and leaves its tokens. -/
theorem scan_eq (source : List Char) : scan source = .ok ((tokens source).map Token.spanned) := by
  rw [scan, takeTokens, takeTokens_ahead {} source [] .start]
  rfl

end StyleAudit.Css.SourceCursor
