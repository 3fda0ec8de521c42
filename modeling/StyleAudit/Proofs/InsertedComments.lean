import StyleAudit.Proofs.MovedTokens
import StyleAudit.Proofs.TokenLookahead
import StyleAudit.Proofs.TokenPieces
/-!
Comments cannot be seen. A comment on one line that is put in front of a token leaves all tokens as they were, but for
their offsets, so the style sheet stays the same.
-/
namespace StyleAudit.Css

/-! Comments in front of a text. -/

theorem commentBody_closed {body : List Char} (h : ¬ ['*', '/'] <:+: body ++ ['*']) (behind : List Char) :
    commentBody (body ++ '*' :: '/' :: behind) = body.length + 2 := by
  induction body with
  | nil => rfl
  | cons c body ih =>
      rw [List.cons_append, List.infix_cons_iff, not_or] at h
      -- the closing does not begin at this very character
      have goesOn : ∀ rest, ¬ (c = '*' ∧ body ++ '*' :: '/' :: behind = '/' :: rest) := by
        rintro rest ⟨rfl, ahead⟩
        cases body with
        | nil => cases ahead
        | cons d body =>
            obtain ⟨rfl, -⟩ := List.cons.inj ahead
            exact h.1 ⟨body ++ ['*'], rfl⟩
      rw [List.cons_append, commentBody, ih h.2, List.length_cons]
      · omega
      · intro rest star slash
        exact goesOn rest ⟨star, slash⟩

theorem comments_closed {comment : List Char} (h : ClosedComment comment) (behind : List Char) :
    comments (comment ++ behind) = comment.length + comments behind := by
  obtain ⟨body, rfl, first⟩ := h
  have whole : '/' :: '*' :: (body ++ ['*', '/']) ++ behind = '/' :: '*' :: (body ++ '*' :: '/' :: behind) := by simp
  have rest : (body ++ '*' :: '/' :: behind).drop (body.length + 2) = behind := by simp
  rw [whole, comments, commentBody_closed first, rest]
  simp
  omega

theorem comments_append {gap : List Char} (h : ClosedComments gap) (behind : List Char) :
    comments (gap ++ behind) = gap.length + comments behind := by
  obtain ⟨parts, rfl, closed⟩ := h
  induction parts with
  | nil => simp
  | cons part parts ih =>
      obtain ⟨first, closed⟩ := List.forall_mem_cons.mp closed
      rw [List.flatten_cons, List.append_assoc, comments_closed first, ih closed, List.length_append, Nat.add_assoc]

/-! One token. -/

theorem tokensFrom_end {text : List Char} (none : text.drop (comments text) = []) (place : Place) :
    tokensFrom place text = [⟨.endOfSource, place.after (text.take (comments text)), []⟩] := by
  rw [tokensFrom.eq_def]
  dsimp only
  split
  · rfl
  · next some => rw [none] at some; cases some

theorem tokensFrom_first {text rest : List Char} {c : Char} (first : text.drop (comments text) = c :: rest) (place : Place) :
    tokensFrom place text =
      ⟨(token c rest).value, place.after (text.take (comments text)), (c :: rest).take (token c rest).size⟩ ::
        tokensFrom ((place.after (text.take (comments text))).after ((c :: rest).take (token c rest).size))
          ((c :: rest).drop (token c rest).size) := by
  rw [tokensFrom.eq_def]
  dsimp only
  split
  · next none => rw [none] at first; cases first
  · next d behind some =>
      rw [first] at some
      obtain ⟨rfl, rfl⟩ := List.cons.inj some
      rfl

theorem tokensFrom_ne_nil (place : Place) (text : List Char) : tokensFrom place text ≠ [] := by
  cases first : text.drop (comments text) with
  | nil => rw [tokensFrom_end first]; exact List.cons_ne_nil _ _
  | cons c rest => rw [tokensFrom_first first]; exact List.cons_ne_nil _ _

/-- Tokens behind comments are read as they are without them. -/
theorem tokensFrom_gap {gap : List Char} (h : ClosedComments gap) (place : Place) (behind : List Char) :
    tokensFrom place (gap ++ behind) = tokensFrom (place.after gap) behind := by
  have size := comments_append h behind
  have rest : (gap ++ behind).drop (comments (gap ++ behind)) = behind.drop (comments behind) := by
    rw [size, List.drop_length_add_append]
  have start : place.after ((gap ++ behind).take (comments (gap ++ behind))) =
      (place.after gap).after (behind.take (comments behind)) := by
    rw [size, List.take_length_add_append, Place.after_append]
  cases first : behind.drop (comments behind) with
  | nil => rw [tokensFrom_end (rest.trans first), tokensFrom_end first, start]
  | cons c more => rw [tokensFrom_first (rest.trans first), tokensFrom_first first, start]

/-- A text whose first token is not the last one, taken apart at both ends of that token. -/
structure FirstToken (place : Place) (text : List Char) (u : Token) (ts : List Token) (gap : List Char) (c : Char)
    (more behind : List Char) : Prop where
  whole : text = gap ++ (c :: more ++ behind)
  closed : ClosedComments gap
  bare : comments (c :: more ++ behind) = 0
  size : (token c (more ++ behind)).size = 1 + more.length
  first : u = ⟨(token c (more ++ behind)).value, place.after gap, c :: more⟩
  later : ts = tokensFrom (place.after (gap ++ (c :: more))) behind

theorem comments_behind (text : List Char) : comments (text.drop (comments text)) = 0 := by
  induction text using comments.induct with
  | case1 rest ih =>
      have size : comments ('/' :: '*' :: rest) =
          comments (rest.drop (commentBody rest)) + commentBody rest + 2 := by
        rw [comments]
        omega
      rw [size, List.drop_succ_cons, List.drop_succ_cons, Nat.add_comm, ← List.drop_drop, ih]
  | case2 text none =>
      have size : comments text = 0 := by rw [comments]; exact none
      rw [size, List.drop_zero, size]

theorem firstToken {place : Place} {text : List Char} {u : Token} {ts : List Token}
    (h : tokensFrom place text = u :: ts) (some : ∃ t ∈ ts, t.kind ≠ .endOfSource) :
    ∃ gap c more behind, FirstToken place text u ts gap c more behind := by
  obtain ⟨t, member, kind⟩ := some
  cases first : text.drop (comments text) with
  | nil =>
      rw [tokensFrom_end first] at h
      obtain ⟨-, rfl⟩ := List.cons.inj h
      cases member
  | cons c rest =>
      rw [tokensFrom_first first] at h
      obtain ⟨rfl, rfl⟩ := List.cons.inj h
      have short : (token c rest).size < (c :: rest).length := by
        by_contra all
        rw [List.drop_eq_nil_of_le (Nat.not_lt.mp all), tokensFrom_nil] at member
        obtain rfl := List.mem_singleton.mp member
        exact kind rfl
      have progress := token_size_pos c rest
      obtain ⟨n, size⟩ : ∃ n, (token c rest).size = n + 1 := ⟨(token c rest).size - 1, by omega⟩
      have split : rest.take n ++ rest.drop n = rest := List.take_append_drop n rest
      refine ⟨text.take (comments text), c, rest.take n, rest.drop n, ?_, ?_, ?_, ?_, ?_, ?_⟩
      · rw [List.cons_append, split, ← first, List.take_append_drop]
      · exact (comments_spec text).2 (by rw [first]; exact List.cons_ne_nil _ _)
      · rw [List.cons_append, split, ← first, comments_behind]
      · rw [split, size, List.length_take_of_le, Nat.add_comm]
        rw [size, List.length_cons] at short
        omega
      · rw [split, size, List.take_succ_cons]
      · rw [size, List.take_succ_cons, List.drop_succ_cons, Place.after_append]

theorem FirstToken.tokens {place : Place} {text : List Char} {u : Token} {ts : List Token} {gap more behind : List Char}
    {c : Char} (h : FirstToken place text u ts gap c more behind) : tokensFrom place text = u :: ts := by
  have first : (c :: (more ++ behind)).drop (comments (c :: (more ++ behind))) = c :: (more ++ behind) := by
    rw [← List.cons_append, h.bare, List.drop_zero]
  have lexeme : (c :: (more ++ behind)).take (1 + more.length) = c :: more := by
    rw [Nat.add_comm, List.take_succ_cons, List.take_left]
  have rest : (c :: (more ++ behind)).drop (1 + more.length) = behind := by
    rw [Nat.add_comm, List.drop_succ_cons, List.drop_left]
  rw [h.whole, tokensFrom_gap h.closed, List.cons_append, tokensFrom_first first, h.size, lexeme, rest, h.first, h.later,
    ← List.cons_append, h.bare, List.take_zero, Place.after_nil, Place.after_append]

/-- Every token behind the first stands behind the place where the text starts. -/
theorem start_lt {place : Place} {text : List Char} {us vs : List Token} {t : Token}
    (h : tokensFrom place text = us ++ t :: vs) (some : us ≠ []) : place.offset < t.start := by
  obtain ⟨u, us, rfl⟩ := List.exists_cons_of_ne_nil some
  have laid := tokensFrom_laid place text
  rw [h] at laid
  generalize same : u :: us ++ t :: vs = ts at laid
  cases laid with
  | stop final =>
      obtain ⟨-, none⟩ := List.cons.inj same
      exact absurd none (by simp)
  | @token _ gap lexeme rest kind ts closed progress notEnd laid =>
      obtain ⟨-, rfl⟩ := List.cons.inj same
      obtain ⟨ahead, behind, -, counted⟩ := laid.position (t := t) (by simp)
      have := List.length_pos_iff.mpr progress
      simp only [Token.start, counted, Place.after]
      omega

/-- Where a token starts, what stands before it is comments alone if no token does. -/
theorem closed_of_first {place : Place} {before behind : List Char} {t : Token} {vs : List Token}
    (h : tokensFrom place (before ++ behind) = t :: vs) (kind : t.kind ≠ .endOfSource)
    (start : t.start = place.offset + before.length) : ClosedComments before ∧ behind ≠ [] := by
  have laid := tokensFrom_laid place (before ++ behind)
  rw [h] at laid
  generalize same : before ++ behind = text at laid
  cases laid with
  | stop final => exact absurd rfl kind
  | @token _ gap lexeme rest kind ts closed progress notEnd laid =>
      have length : gap.length = before.length := Nat.add_left_cancel start
      rw [List.append_assoc] at same
      obtain ⟨rfl, rfl⟩ := List.append_inj same length.symm
      exact ⟨closed, by simp [progress]⟩

/-! What a comment may be put behind. -/

/-- A word is in front of a text that begins with no character of it. -/
theorem prefix_of_not_mem {word front text : List Char} (h : word <+: front ++ text)
    (none : ∀ c, text.head? = some c → c ∉ word) : word <+: front := by
  induction front generalizing word with
  | nil =>
      cases word with
      | nil => exact List.nil_prefix
      | cons d word =>
          obtain ⟨rest, rfl⟩ := h
          exact absurd List.mem_cons_self (none d rfl)
  | cons d front ih =>
      cases word with
      | nil => exact List.nil_prefix
      | cons e word =>
          obtain ⟨rfl, behind⟩ := List.cons_prefix_cons.mp h
          exact List.cons_prefix_cons.mpr ⟨rfl, ih behind fun c first member => none c first (List.mem_cons_of_mem _ member)⟩

/-- A text with which nothing in front of it goes on. -/
def Stops (text : List Char) : Prop := ∀ c, text.head? = some c → IsStop c ∧ c ≠ '>'

theorem IsBreak.stops {b : Char} (h : IsBreak b) (angle : b ≠ '>') {rest : List Char} : Stops (b :: rest) := by
  rintro c ⟨⟩
  exact ⟨h.toIsStop, angle⟩

theorem Stops.startsName {text : List Char} (h : Stops text) : startsName text = false := by
  cases text with
  | nil => rfl
  | cons c rest =>
      obtain ⟨stop, -⟩ := h c rfl
      rw [Css.startsName, stop.name, stop.startsEscape, Bool.or_false]

theorem Stops.startsDigit {text : List Char} (h : Stops text) : Numeral.startsDigit text = false := by
  cases text with
  | nil => rfl
  | cons c rest => exact (h c rfl).1.digit

/-- The beginning of a text in front of a break shows all that a token could go on with, unless it ends in a backslash that
nothing escapes. -/
theorem yields_behind {text front other : List Char} (h : Stops text) (some : front ≠ []) (nonempty : other ≠ [])
    (escape : front = ['\\'] ∨ front = ['-', '\\'] → escapable other = true) : Yields (front ++ text) (front ++ other) where
  nonempty := List.append_ne_nil_of_right_ne_nil _ nonempty
  first c same := by
    obtain ⟨d, front, rfl⟩ := List.exists_cons_of_ne_nil some
    exact .inr (.inl same)
  escape starts := by
    obtain ⟨c, front, rfl⟩ := List.exists_cons_of_ne_nil some
    cases front with
    | nil =>
        obtain rfl : c = '\\' := eq_of_beq (Bool.and_eq_true_iff.mp starts).1
        exact Bool.and_eq_true_iff.mpr ⟨rfl, escape (.inl rfl)⟩
    | cons d front => exact starts
  ident starts := by
    obtain ⟨c, front, rfl⟩ := List.exists_cons_of_ne_nil some
    by_cases dash : c = '-'
    · subst dash
      rw [List.cons_append, startsIdent_dash_eq, Bool.or_eq_true] at starts ⊢
      cases front with
      | nil =>
          have none := startsIdent_dash h.startsName
          rw [startsIdent_dash_eq, Bool.or_eq_false_iff] at none
          rw [List.nil_append, none.1, none.2] at starts
          exact absurd starts (by decide)
      | cons d front =>
          refine starts.imp id fun starts => ?_
          cases front with
          | nil =>
              obtain rfl : d = '\\' := eq_of_beq (Bool.and_eq_true_iff.mp starts).1
              exact Bool.and_eq_true_iff.mpr ⟨rfl, escape (.inr rfl)⟩
          | cons e front => exact starts
    · rw [List.cons_append, startsIdent_of_ne_dash dash, Bool.or_eq_true] at starts ⊢
      refine starts.imp id fun starts => ?_
      cases front with
      | nil =>
          obtain rfl : c = '\\' := eq_of_beq (Bool.and_eq_true_iff.mp starts).1
          exact Bool.and_eq_true_iff.mpr ⟨rfl, escape (.inl rfl)⟩
      | cons d front => exact starts
  point starts := by
    obtain ⟨c, front, rfl⟩ := List.exists_cons_of_ne_nil some
    obtain ⟨point, digit⟩ := startsPoint_cons.mp (show startsPoint (c :: (front ++ text)) = true from starts)
    cases front with
    | nil =>
        rw [List.nil_append, h.startsDigit] at digit
        exact absurd digit Bool.false_ne_true
    | cons d front => exact startsPoint_cons.mpr ⟨point, digit⟩
  sign starts := by
    obtain ⟨c, front, rfl⟩ := List.exists_cons_of_ne_nil some
    rw [List.cons_append, Numeral.takeSign] at starts ⊢
    split at starts
    · next signed =>
        rw [if_pos signed]
        cases front with
        | nil =>
            rw [List.nil_append, h.startsDigit] at starts
            cases starts
        | cons d front => exact starts
    · next unsigned =>
        rw [if_neg unsigned]
        exact starts
  closing starts := (prefix_of_not_mem starts fun c first => by simp [(h c first).1.dash, (h c first).2]).trans
    (List.prefix_append _ _)
  opening starts := by
    obtain ⟨c, front, rfl⟩ := List.exists_cons_of_ne_nil some
    rw [List.cons_append, List.cons_prefix_cons] at starts ⊢
    refine ⟨starts.1, ?_⟩
    exact (prefix_of_not_mem starts.2 fun c first => by simp [(h c first).1.dash]).trans (List.prefix_append _ _)

/-- Tokens behind which a comment cannot be seen. -/
structure IsSeparate (us : List Token) : Prop where
  last : ∀ u, us.getLast? = some u → u.kind ≠ .badString ∧ u.kind ≠ .delim '\\'
  address : ∀ ahead u spaces, us = ahead ++ u :: spaces → (∀ s ∈ spaces, s.kind = .whitespace) →
    ∀ name, u.kind = .function name → name.toLower ≠ "url"

theorem IsSeparate.tail {u : Token} {us : List Token} (h : IsSeparate (u :: us)) : IsSeparate us where
  last v last := h.last v (by rw [List.getLast?_cons, last]; rfl)
  address ahead v spaces same := h.address (u :: ahead) v spaces (by rw [same]; rfl)

theorem IsSeparate.behind {ahead us : List Token} (h : IsSeparate (ahead ++ us)) : IsSeparate us := by
  induction ahead with
  | nil => exact h
  | cons u ahead ih => exact ih h.tail

/-! Tokens in front of one that starts at a given place. -/

section
variable {place : Place} {front behind : List Char} {us vs : List Token} {t : Token}

theorem eq_nil_of_start (h : tokensFrom place behind = us ++ t :: vs) (start : t.start = place.offset) : us = [] := by
  by_contra some
  have := start_lt h some
  omega

theorem first_mark {c : Char} {rest : List Char} (bare : comments (c :: rest) = 0) (mark : token c rest = ⟨.delim c, 1⟩)
    (h : tokensFrom place (c :: rest) = us ++ t :: vs) (start : t.start ≠ place.offset) :
    ∃ us', us = ⟨.delim c, place, [c]⟩ :: us' ∧ tokensFrom (place.after [c]) rest = us' ++ t :: vs := by
  have first : (c :: rest).drop (comments (c :: rest)) = c :: rest := by rw [bare, List.drop_zero]
  rw [tokensFrom_first first, bare, mark] at h
  cases us with
  | nil =>
      obtain ⟨rfl, -⟩ := List.cons.inj h
      exact absurd rfl start
  | cons u us =>
      obtain ⟨rfl, later⟩ := List.cons.inj h
      exact ⟨us, rfl, later⟩

theorem token_backslash {rest : List Char} (h : escapable rest = false) : token '\\' rest = ⟨.delim '\\', 1⟩ := by
  have ident : ¬ startsIdent ('\\' :: rest) = true := by
    rw [startsIdent_of_ne_dash (by decide), startsEscape, h]
    decide
  exact token_delim ⟨rfl, by decide, by decide⟩ (absurd · Bool.false_ne_true) (by simp) (by simp) (by simp) (by simp) ident

theorem token_dash_backslash {rest : List Char} (h : escapable rest = false) :
    token '-' ('\\' :: rest) = ⟨.delim '-', 1⟩ := by
  have ident : ¬ startsIdent ('-' :: '\\' :: rest) = true := by
    rw [startsIdent_dash_eq, startsEscape, h, List.head?_cons, Option.any_some]
    decide
  exact token_delim ⟨rfl, by decide, by decide⟩ (absurd · Bool.false_ne_true) (by simp) (by simp) (by simp) (by simp) ident

/-- A backslash in front of a token is part of an escape unless it is the last token before it. -/
theorem escapable_of_separate (h : tokensFrom place (front ++ behind) = us ++ t :: vs)
    (start : t.start = place.offset + front.length) (separate : IsSeparate us)
    (slash : front = ['\\'] ∨ front = ['-', '\\']) : escapable behind = true := by
  rw [← Bool.not_eq_false]
  intro ends
  have alone {place : Place} {us : List Token} (h : tokensFrom place ('\\' :: behind) = us ++ t :: vs)
      (start : t.start = place.offset + 1) : ∃ u, us = [u] ∧ u.kind = .delim '\\' := by
    obtain ⟨us', rfl, later⟩ := first_mark (comments_of_first (by decide) _) (token_backslash ends) h (by omega)
    exact ⟨_, congrArg (_ :: ·) (eq_nil_of_start later start), rfl⟩
  rcases slash with rfl | rfl
  · obtain ⟨u, rfl, kind⟩ := alone h start
    exact (separate.last u rfl).2 kind
  · obtain ⟨us', rfl, later⟩ := first_mark (comments_of_first (by decide) _) (token_dash_backslash ends) h (by
      rw [List.length_cons] at start
      omega)
    obtain ⟨u, rfl, kind⟩ := alone later start
    exact (separate.last u rfl).2 kind

/-- Only white space is read from white space. -/
theorem whitespace_of_spaces (h : tokensFrom place (front ++ behind) = us ++ t :: vs)
    (start : t.start = place.offset + front.length) (blank : front.dropWhile isSpace = []) :
    ∀ u ∈ us, u.kind = .whitespace := by
  cases front with
  | nil =>
      rw [eq_nil_of_start h start]
      simp
  | cons c front =>
      have space : isSpace c = true := by
        by_contra other
        rw [List.dropWhile_cons, if_neg other] at blank
        cases blank
      rw [List.dropWhile_cons, if_pos space] at blank
      have mark : punctuation? c = none ∧ c ≠ '/' := by
        simp only [isSpace, Bool.or_eq_true, beq_iff_eq] at space
        rcases space with (rfl | rfl) | rfl <;> exact ⟨rfl, by decide⟩
      have bare := comments_of_first mark.2 (front ++ behind)
      have first : (c :: (front ++ behind)).drop (comments (c :: (front ++ behind))) = c :: (front ++ behind) := by
        rw [bare, List.drop_zero]
      rw [List.cons_append, tokensFrom_first first, token_space mark.1 space] at h
      cases us with
      | nil => simp
      | cons u us =>
          obtain ⟨rfl, later⟩ := List.cons.inj h
          -- the white space reaches to the token, so that no token can stand between
          have long : front.length ≤ spaces (front ++ behind) := by
            rw [spaces, List.takeWhile_append, if_pos, List.length_append]
            · omega
            · have whole := List.takeWhile_append_dropWhile (p := isSpace) (l := front)
              rw [blank, List.append_nil] at whole
              rw [whole]
          have none : us = [] := by
            by_contra some
            have late := start_lt later some
            simp only [Place.after, List.length_take, List.length_cons, List.length_append] at late start
            omega
          rw [none]
          simp

end

theorem comments_slash {text : List Char} : comments ('/' :: text) = 0 ↔ text.head? ≠ some '*' := by
  constructor
  · rintro none first
    obtain ⟨rest, rfl⟩ := List.head?_eq_some_iff.mp first
    rw [comments] at none
    omega
  · intro other
    unfold comments
    split
    · next same =>
        obtain ⟨-, rfl⟩ := List.cons.inj same
        exact absurd rfl other
    · rfl

/-- What yields begins no comment. -/
theorem Yields.comments {text other front : List Char} (h : Yields text other) {c : Char}
    (bare : Css.comments (c :: front ++ other) = 0) : Css.comments (c :: front ++ text) = 0 := by
  by_cases slash : c = '/'
  · subst slash
    rw [List.cons_append, comments_slash] at bare ⊢
    cases front with
    | nil => exact fun star => bare (h.mark (by decide) star)
    | cons d front => exact bare
  · exact comments_of_first slash _

section
variable {comment : List Char} (closed : ClosedComment comment) {place : Place} {front behind : List Char}
  {us vs : List Token} {t : Token} (h : tokensFrom place (front ++ behind) = us ++ t :: vs)
  (start : t.start = place.offset + front.length) (nonempty : behind ≠ [])
include closed h start nonempty

theorem yields_comment (separate : IsSeparate us) : Yields (front ++ (comment ++ behind)) (front ++ behind) := by
  obtain ⟨body, rfl, -⟩ := closed
  by_cases some : front = []
  · subst some
    exact isBreak_slash.yields _ nonempty (.inl (by decide))
  · exact yields_behind (isBreak_slash.stops (by decide)) some nonempty (escapable_of_separate h start separate)

/-- A token in front of others that are separate from a comment is read as before when the comment is put behind them. -/
theorem token_comment {c : Char} {more : List Char} {u : Token} (separate : IsSeparate (u :: us))
    (kind : u.kind = (token c (more ++ (front ++ behind))).value)
    (size : (token c (more ++ (front ++ behind))).size = 1 + more.length) :
    token c (more ++ (front ++ (comment ++ behind))) = token c (more ++ (front ++ behind)) := by
  have yields := yields_comment closed h start nonempty separate.tail
  apply yields.token size
  · intro bad
    rw [← kind] at bad
    cases front with
    | nil =>
        obtain rfl := eq_nil_of_start h start
        exact absurd bad (not_or.mpr (separate.last u rfl))
    | cons d front => rfl
  · intro name function url
    by_cases blank : front.dropWhile isSpace = []
    · exact absurd url (separate.address [] u us rfl (whitespace_of_spaces h start blank) name (kind.trans function))
    · have more : ((front.dropWhile isSpace).isEmpty) = false := by
        rw [← Bool.not_eq_true, List.isEmpty_iff]
        exact blank
      obtain ⟨d, rest, same⟩ := List.exists_cons_of_ne_nil blank
      have first (X : List Char) : ((front ++ X).dropWhile isSpace).head? = some d := by
        rw [List.dropWhile_append, more, if_neg Bool.false_ne_true, same]
        rfl
      rw [first, first]

end

/-- A token, followed by others up to the place where a text starts, is read as before when another text starts there. -/
def KeepsReading (behind behind' : List Char) (u : Token) (later : List Token) (t : Token) (vs : List Token) : Prop :=
  ∀ place text gap c more front, FirstToken place text u (later ++ t :: vs) gap c more (front ++ behind) →
    t.start = (place.after (gap ++ (c :: more))).offset + front.length →
    token c (more ++ (front ++ behind')) = token c (more ++ (front ++ behind)) ∧
      comments (c :: more ++ (front ++ behind')) = 0

/-- Tokens in front of a place are as before when another text stands behind it, if each of them is read as before. -/
theorem tokensFrom_behind {behind behind' : List Char} {place : Place} {before : List Char} {us vs : List Token} {t : Token}
    (h : tokensFrom place (before ++ behind) = us ++ t :: vs) (start : t.start = place.offset + before.length)
    (kind : t.kind ≠ .endOfSource)
    (keeps : ∀ ahead u later, us = ahead ++ u :: later → KeepsReading behind behind' u later t vs) :
    tokensFrom place (before ++ behind') = us ++ tokensFrom (place.after before) behind' ∧
      tokensFrom (place.after before) behind = t :: vs := by
  induction us generalizing place before with
  | nil =>
      obtain ⟨gap, -⟩ := closed_of_first h kind start
      rw [tokensFrom_gap gap]
      rw [tokensFrom_gap gap] at h
      exact ⟨rfl, h⟩
  | cons u us ih =>
      obtain ⟨gap, c, more, rest, first⟩ := firstToken h ⟨t, by simp, kind⟩
      obtain ⟨front, rfl, rfl⟩ : ∃ front, before = gap ++ (c :: more) ++ front ∧ rest = front ++ behind := by
        obtain ⟨ahead, _, -, counted⟩ := (first.later ▸ tokensFrom_laid _ rest).position (t := t) (by simp)
        have long : (gap ++ (c :: more)).length ≤ before.length := by
          simp only [Token.start, counted, Place.after] at start
          omega
        have whole := first.whole
        rw [← List.append_assoc] at whole
        have part : gap ++ (c :: more) <+: before ++ behind := whole ▸ List.prefix_append _ _
        obtain ⟨front, rfl⟩ := List.prefix_of_prefix_length_le part (List.prefix_append _ _) long
        rw [List.append_assoc (gap ++ (c :: more))] at whole
        exact ⟨front, rfl, (List.append_cancel_left whole).symm⟩
      have start' : t.start = (place.after (gap ++ (c :: more))).offset + front.length := by
        rw [start, List.length_append, Place.after, Nat.add_assoc]
      obtain ⟨later, rest⟩ := ih first.later.symm start' fun ahead v later same => keeps (u :: ahead) v later (by rw [same]; rfl)
      obtain ⟨same, bare⟩ := keeps [] u us rfl place _ gap c more front first start'
      have again : FirstToken place (gap ++ (c :: more) ++ front ++ behind') u
          (us ++ tokensFrom (place.after (gap ++ (c :: more) ++ front)) behind') gap c more (front ++ behind') := {
        whole := by simp
        closed := first.closed
        bare := bare
        size := by rw [same, first.size]
        first := by rw [same, first.first]
        later := by rw [later, ← Place.after_append] }
      refine ⟨again.tokens, ?_⟩
      rw [Place.after_append]
      exact rest

/-- A comment in front of a token changes no token but for the places behind it. -/
theorem tokensFrom_comment {comment : List Char} (closed : ClosedComment comment) {place : Place} {before behind : List Char}
    {us vs : List Token} {t : Token} (h : tokensFrom place (before ++ behind) = us ++ t :: vs)
    (start : t.start = place.offset + before.length) (kind : t.kind ≠ .endOfSource) (separate : IsSeparate us) :
    tokensFrom place (before ++ (comment ++ behind)) = us ++ tokensFrom (place.after (before ++ comment)) behind ∧
      tokensFrom (place.after before) behind = t :: vs := by
  have comments : ClosedComments comment := by
    have := ClosedComments.cons closed .nil
    rwa [List.append_nil] at this
  have nonempty : behind ≠ [] := by
    rintro rfl
    have rest := (tokensFrom_behind h start kind fun _ _ _ _ _ _ _ _ _ _ first _ => ⟨rfl, first.bare⟩).2
    rw [tokensFrom_nil] at rest
    exact kind (by rw [← (List.cons.inj rest).1])
  have keeps : ∀ ahead u later, us = ahead ++ u :: later → KeepsReading behind (comment ++ behind) u later t vs := by
    rintro ahead u later rfl place text gap c more front first start
    have separate := separate.behind
    exact ⟨token_comment closed first.later.symm start nonempty separate (congrArg Token.kind first.first) first.size,
      (yields_comment closed first.later.symm start nonempty separate.tail).comments first.bare⟩
  rw [Place.after_append, ← tokensFrom_gap comments]
  exact tokensFrom_behind h start kind keeps

/-! Tokens of the same text at another place. -/

/-- A token so many characters and lines further on. -/
def Token.shifted (offset line : Nat) (t : Token) : Token :=
  { t with place := ⟨t.place.offset + offset, t.place.line + line⟩ }

theorem tokensFrom_shifted (offset line : Nat) (place : Place) (text : List Char) :
    tokensFrom ⟨place.offset + offset, place.line + line⟩ text = (tokensFrom place text).map (Token.shifted offset line) := by
  have after (p : Place) (part : List Char) : Place.after ⟨p.offset + offset, p.line + line⟩ part =
      ⟨(p.after part).offset + offset, (p.after part).line + line⟩ := by
    simp only [Place.after, Place.mk.injEq]
    omega
  induction place, text using tokensFrom.induct with
  | case1 place text skipped none =>
      rw [tokensFrom_end none, tokensFrom_end none, after]
      rfl
  | case2 place text skipped start c rest first t lexeme ih =>
      rw [tokensFrom_first first, tokensFrom_first first, after, after, ih, List.map_cons]
      rfl

/-- A token of which only the line is known. -/
def Token.onLine (t : Token) : Token := { t with place := ⟨0, t.line⟩ }

theorem moves_onLine : Moves Token.onLine id := ⟨fun _ => rfl, fun _ => rfl, fun _ => rfl⟩

theorem Stylesheet.ofTokens_onLine {ts us : List Token} (some : ts ≠ []) (h : ts.map Token.onLine = us.map Token.onLine) :
    Stylesheet.ofTokens ts = Stylesheet.ofTokens us := by
  have some' : us ≠ [] := by
    rintro rfl
    exact some (List.map_eq_nil_iff.mp h)
  have same := ofTokens_moved moves_onLine some
  rw [h, ofTokens_moved moves_onLine some', moved_id, moved_id] at same
  exact same.symm

/-! Normal form. -/

/-- A character in the normal form of a source. -/
def normalChar (c : Char) : Char := if c = '\r' ∨ c = '\x0c' then '\n' else if c = '\x00' then '\uFFFD' else c

theorem normalize_eq_map {text : List Char} (h : '\r' ∉ text) : normalize text = text.map normalChar := by
  induction text with
  | nil => rfl
  | cons c rest ih =>
      rw [List.mem_cons, not_or] at h
      rw [normalize, ih h.2]
      · rfl
      · rintro rest' rfl -
        exact h.1 rfl

theorem not_mem_normalize (text : List Char) : '\r' ∉ normalize text := by
  induction text using normalize.induct with
  | case1 => simp [normalize]
  | case2 rest ih => simp [normalize, ih]
  | case3 c rest other ih =>
      rw [normalize, List.mem_cons, not_or]
      · refine ⟨?_, ih⟩
        split
        · decide
        · next plain =>
            split
            · decide
            · exact fun same => plain (.inl same.symm)
      · exact other

theorem eq_of_normalChar {c d : Char} (plain : d ≠ '\n' ∧ d ≠ '\uFFFD') (h : normalChar c = d) : c = d := by
  unfold normalChar at h
  split at h
  · exact absurd h.symm plain.1
  · split at h
    · exact absurd h.symm plain.2
    · exact h

theorem infix_of_map {f : Char → Char} {a b : Char} {text : List Char} (ha : ∀ c, f c = a → c = a)
    (hb : ∀ c, f c = b → c = b) (h : [a, b] <:+: text.map f) : [a, b] <:+: text := by
  induction text with
  | nil => simp at h
  | cons c rest ih =>
      rw [List.map_cons, List.infix_cons_iff] at h
      rcases h with here | later
      · obtain ⟨first, behind⟩ := List.cons_prefix_cons.mp here
        cases rest with
        | nil => simp at behind
        | cons d rest =>
            obtain ⟨second, -⟩ := List.cons_prefix_cons.mp behind
            obtain rfl := ha c first.symm
            obtain rfl := hb d second.symm
            exact ⟨[], rest, rfl⟩
      · exact (ih later).trans (List.suffix_cons c rest).isInfix

/-- A comment on one line. -/
structure IsLineComment (comment : List Char) : Prop where
  closed : ClosedComment comment
  line : ∀ c ∈ comment, c ≠ '\n' ∧ c ≠ '\r' ∧ c ≠ '\x0c'

theorem IsLineComment.normal {comment : List Char} (h : IsLineComment comment) :
    ClosedComment (comment.map normalChar) ∧ (comment.map normalChar).count '\n' = 0 := by
  obtain ⟨⟨body, rfl, first⟩, line⟩ := h
  constructor
  · refine ⟨body.map normalChar, by simp [normalChar], fun ends => first ?_⟩
    have whole : body.map normalChar ++ ['*'] = (body ++ ['*']).map normalChar := by simp [normalChar]
    rw [whole] at ends
    exact infix_of_map (fun c => eq_of_normalChar (by decide)) (fun c => eq_of_normalChar (by decide)) ends
  · rw [List.count_eq_zero]
    intro member
    obtain ⟨c, inside, ends⟩ := List.mem_map.mp member
    obtain ⟨feed, return_, page⟩ := line c inside
    rw [normalChar, if_neg (not_or.mpr ⟨return_, page⟩)] at ends
    split at ends
    · exact absurd ends (by decide)
    · exact feed ends

/-- A text with another one put in at an offset. -/
def inserted (text part : List Char) (offset : Nat) : List Char := text.take offset ++ (part ++ text.drop offset)

/-- A comment on one line in front of a token leaves the style sheet as it is. -/
theorem ofText_comment {source : String} {comment : List Char} {us vs : List Token} {t : Token}
    (normal : normalize source.toList = source.toList) (tokens : tokenize source = us ++ t :: vs)
    (kind : t.kind ≠ .endOfSource) (separate : IsSeparate us) (line : IsLineComment comment) :
    Stylesheet.ofText (String.ofList (inserted source.toList comment t.start)) = Stylesheet.ofText source := by
  obtain ⟨closed, oneLine⟩ := line.normal
  -- the new source in normal form has the comment in normal form in it
  have clean : '\r' ∉ source.toList := normal ▸ not_mem_normalize _
  rw [normalize_eq_map clean] at normal
  have whole : normalize (inserted source.toList comment t.start) =
      source.toList.take t.start ++ (comment.map normalChar ++ source.toList.drop t.start) := by
    rw [normalize_eq_map, inserted, List.map_append, List.map_append, List.map_take, List.map_drop, normal]
    simp only [inserted, List.mem_append, not_or]
    exact ⟨fun c => clean (List.mem_of_mem_take c), fun c => (line.line _ c).2.1 rfl, fun c => clean (List.mem_of_mem_drop c)⟩
  rw [tokenize, normalize_eq_map clean, normal, Css.tokens] at tokens
  obtain ⟨ahead, behind, split, counted⟩ := (tokens ▸ tokensFrom_laid {} source.toList).position (t := t) (by simp)
  have start : t.start = ahead.length := by simp [Token.start, counted, Place.after]
  have before : source.toList.take t.start = ahead := by rw [split, start, List.take_left]
  have later : source.toList.drop t.start = t.lexeme ++ behind := by rw [split, start, List.drop_left]
  rw [split] at tokens
  obtain ⟨new, old⟩ := tokensFrom_comment closed tokens (by rw [start]; simp) kind separate
  rw [Stylesheet.ofText, Stylesheet.ofText, tokenize, tokenize, String.toList_ofList, whole, before, later, Css.tokens, new,
    normalize_eq_map clean, normal, split, Css.tokens, tokens]
  have place : Place.after {} (ahead ++ comment.map normalChar) =
      ⟨(Place.after {} ahead).offset + (comment.map normalChar).length, (Place.after {} ahead).line + 0⟩ := by
    rw [Place.after_append, Place.after, oneLine]
  rw [place, tokensFrom_shifted, old]
  refine Stylesheet.ofTokens_onLine (by simp) ?_
  rw [List.map_append, List.map_append, List.map_map]
  rfl

theorem ofText_comment_important :
    Stylesheet.ofText "a\x7bb:c!/*;*/important\x7d" = Stylesheet.ofText "a\x7bb:c!important\x7d" := by
  have tokens : tokenize "a\x7bb:c!important\x7d" =
      [⟨.ident "a", ⟨0, 1⟩, ['a']⟩, ⟨.opening .curly, ⟨1, 1⟩, ['\x7b']⟩, ⟨.ident "b", ⟨2, 1⟩, ['b']⟩,
        ⟨.colon, ⟨3, 1⟩, [':']⟩, ⟨.ident "c", ⟨4, 1⟩, ['c']⟩, ⟨.delim '!', ⟨5, 1⟩, ['!']⟩] ++
      ⟨.ident "important", ⟨6, 1⟩, "important".toList⟩ ::
        [⟨.closing .curly, ⟨15, 1⟩, ['\x7d']⟩, ⟨.endOfSource, ⟨16, 1⟩, []⟩] := by decide +kernel
  have comment : IsLineComment ['/', '*', ';', '*', '/'] := ⟨⟨[';'], rfl, by decide⟩, by simp⟩
  have separate : IsSeparate
      [⟨.ident "a", ⟨0, 1⟩, ['a']⟩, ⟨.opening .curly, ⟨1, 1⟩, ['\x7b']⟩, ⟨.ident "b", ⟨2, 1⟩, ['b']⟩,
        ⟨.colon, ⟨3, 1⟩, [':']⟩, ⟨.ident "c", ⟨4, 1⟩, ['c']⟩, ⟨.delim '!', ⟨5, 1⟩, ['!']⟩] := by
    constructor
    · rintro u last
      obtain rfl := Option.some.inj last
      decide
    · intro ahead u spaces same _ name function
      have member : u ∈ ahead ++ u :: spaces := by simp
      rw [← same] at member
      simp only [List.mem_cons, List.not_mem_nil, or_false] at member
      rcases member with rfl | rfl | rfl | rfl | rfl | rfl <;> cases function
  have same := ofText_comment (by decide) tokens (by decide) separate comment
  have source : String.ofList (inserted "a\x7bb:c!important\x7d".toList ['/', '*', ';', '*', '/'] 6) = "a\x7bb:c!/*;*/important\x7d" := by
    decide
  rw [← source]
  exact same

end StyleAudit.Css
