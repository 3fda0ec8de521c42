import Mathlib.Data.List.Infix
import StyleAudit.Css.Lexer
/-!
How tokens lie in their source. A source is laid out as gaps and tokens in turn: a gap is a run of comments, a token is
the text it was read from, and the place of each token is counted from everything before it.
-/
namespace StyleAudit.Css

/-- The part of a source between two offsets. -/
def slice (source : List Char) (start stop : Nat) : List Char := (source.drop start).take (stop - start)

theorem slice_between (before part behind : List Char) :
    slice (before ++ (part ++ behind)) before.length (before.length + part.length) = part := by
  simp [slice]

/-- A comment that ends at the first closing behind its opening. -/
def ClosedComment (text : List Char) : Prop :=
  ∃ body, text = '/' :: '*' :: (body ++ ['*', '/']) ∧ ¬ ['*', '/'] <:+: body ++ ['*']

/-- A comment that nothing closes. -/
def OpenComment (text : List Char) : Prop :=
  ∃ body, text = '/' :: '*' :: body ∧ ¬ ['*', '/'] <:+: body

/-- Closed comments one after the other. -/
def ClosedComments (text : List Char) : Prop :=
  ∃ parts : List (List Char), text = parts.flatten ∧ ∀ part ∈ parts, ClosedComment part

/-- What may stand between the last token that is read and the end of the source: only there may a comment be open. -/
def FinalComments (text : List Char) : Prop :=
  ClosedComments text ∨ ∃ closed rest, text = closed ++ rest ∧ ClosedComments closed ∧ OpenComment rest

theorem ClosedComments.nil : ClosedComments [] := ⟨[], rfl, by simp⟩

theorem ClosedComments.cons {comment rest : List Char} (h : ClosedComment comment) (hr : ClosedComments rest) :
    ClosedComments (comment ++ rest) := by
  obtain ⟨parts, rfl, hp⟩ := hr
  exact ⟨comment :: parts, rfl, by simpa using ⟨h, hp⟩⟩

theorem FinalComments.cons {comment rest : List Char} (h : ClosedComment comment) (hr : FinalComments rest) :
    FinalComments (comment ++ rest) := by
  rcases hr with closed | ⟨closed, rest, rfl, hc, ho⟩
  · exact .inl (.cons h closed)
  · exact .inr ⟨comment ++ closed, rest, by simp, .cons h hc, ho⟩

/-- Either a closing ends the body, at the first place where there is one, or the body is all that is left. -/
theorem commentBody_spec (text : List Char) :
    (∃ body rest, text = body ++ '*' :: '/' :: rest ∧ commentBody text = body.length + 2 ∧
      ¬ ['*', '/'] <:+: body ++ ['*']) ∨
    (commentBody text = text.length ∧ ¬ ['*', '/'] <:+: text) := by
  induction text using commentBody.induct with
  | case1 => exact .inr ⟨rfl, by simp⟩
  | case2 rest => exact .inl ⟨[], rest, rfl, rfl, by simp [List.infix_cons_iff]⟩
  | case3 c rest hc ih =>
      have size : commentBody (c :: rest) = 1 + commentBody rest := by rw [commentBody]; exact hc
      rcases ih with ⟨body, tail, rfl, close, first⟩ | ⟨close, first⟩
      · refine .inl ⟨c :: body, tail, rfl, by rw [size, close, List.length_cons]; omega, ?_⟩
        rw [List.cons_append, List.infix_cons_iff, List.cons_prefix_cons, not_or, not_and]
        refine ⟨?_, first⟩
        -- a closing at this very character would have ended the body here
        intro same ahead
        cases body with
        | nil => simp at ahead
        | cons d body =>
            rw [List.cons_append, List.cons_prefix_cons] at ahead
            exact hc _ same.symm (by rw [← ahead.1]; rfl)
      · refine .inr ⟨by rw [size, close, List.length_cons]; omega, ?_⟩
        rw [List.infix_cons_iff, List.cons_prefix_cons, not_or, not_and]
        refine ⟨?_, first⟩
        intro same ahead
        obtain ⟨tail, rfl⟩ := ahead
        exact hc tail same.symm rfl

/-- What the comments take in front of a token is closed, unless they reach to the end of the text. -/
theorem comments_spec (text : List Char) :
    FinalComments (text.take (comments text)) ∧
      (text.drop (comments text) ≠ [] → ClosedComments (text.take (comments text))) := by
  induction text using comments.induct with
  | case1 rest ih =>
      have size : comments ('/' :: '*' :: rest) =
          2 + commentBody rest + comments (rest.drop (commentBody rest)) := by rw [comments]
      rcases commentBody_spec rest with ⟨body, tail, rfl, close, first⟩ | ⟨close, first⟩
      · have behind : (body ++ '*' :: '/' :: tail).drop (commentBody (body ++ '*' :: '/' :: tail)) = tail := by
          rw [close]; simp
        have comment : ClosedComment ('/' :: '*' :: (body ++ ['*', '/'])) := ⟨body, rfl, first⟩
        have whole : '/' :: '*' :: (body ++ '*' :: '/' :: tail) =
            '/' :: '*' :: (body ++ ['*', '/']) ++ tail := by simp
        have length : 2 + commentBody (body ++ '*' :: '/' :: tail) =
            ('/' :: '*' :: (body ++ ['*', '/'])).length := by rw [close]; simp; omega
        rw [behind] at ih size
        rw [size, length, whole, List.take_length_add_append, List.drop_length_add_append]
        exact ⟨.cons comment ih.1, fun more => .cons comment (ih.2 more)⟩
      · have behind : rest.drop (commentBody rest) = [] := by rw [close]; simp
        have all : comments ('/' :: '*' :: rest) = ('/' :: '*' :: rest).length := by
          rw [size, behind, close, comments]; · simp; omega
          · simp
        rw [all, List.take_length, List.drop_length]
        exact ⟨.inr ⟨[], _, rfl, .nil, rest, rfl, first⟩, fun more => absurd rfl more⟩
  | case2 text none =>
      have size : comments text = 0 := by rw [comments]; exact none
      rw [size]
      exact ⟨.inl .nil, fun _ => .nil⟩

theorem numericToken_ne_endOfSource (text : List Char) : (numericToken text).value ≠ .endOfSource := by
  unfold numericToken
  simp only
  split
  · simp
  · split <;> simp

theorem identToken_ne_endOfSource (text : List Char) : (identToken text).value ≠ .endOfSource := by
  unfold identToken
  simp only
  split
  · split
    · simp only [Text.Scan.behind_value, id_eq, urlToken]
      split
      · simp
      · simp
      · rw [Text.Scan.behind_value]; split <;> simp
    · simp
  · simp

/-- No token but the last stands for the end of the source. -/
theorem token_ne_endOfSource (c : Char) (rest : List Char) : (token c rest).value ≠ .endOfSource := by
  unfold token
  split
  · next kind h => rintro rfl; unfold punctuation? at h; split at h <;> simp at h
  · split
    · simp
    · split
      · rw [stringToken, Text.Scan.behind_value]; split <;> simp
      · split
        · exact numericToken_ne_endOfSource _
        · split
          · simp
          · split
            · simp
            · split
              · simp [hashToken]
              · split
                · simp
                · split
                  · exact identToken_ne_endOfSource _
                  · simp

/-- A text laid out from a place on: comments and tokens in turn, each token with the place it starts at. -/
inductive Laid : Place → List Char → List Token → Prop
  | stop {place : Place} {gap : List Char} : FinalComments gap →
      Laid place gap [⟨.endOfSource, place.after gap, []⟩]
  | token {place : Place} {gap lexeme rest : List Char} {kind : TokenKind} {ts : List Token} :
      ClosedComments gap → lexeme ≠ [] → kind ≠ .endOfSource →
      Laid ((place.after gap).after lexeme) rest ts →
      Laid place (gap ++ lexeme ++ rest) (⟨kind, place.after gap, lexeme⟩ :: ts)

theorem tokensFrom_laid (place : Place) (text : List Char) : Laid place text (tokensFrom place text) := by
  induction place, text using tokensFrom.induct with
  | case1 place text skipped h =>
      have size : text.take (comments text) = text := List.take_of_length_le (List.drop_eq_nil_iff.mp h)
      have final := (comments_spec text).1
      rw [tokensFrom]
      split
      · rw [size] at final ⊢
        exact .stop final
      · next again => rw [again] at h; cases h
  | case2 place text skipped start c rest h t lexeme ih =>
      have closed := (comments_spec text).2 (by rw [show text.drop _ = _ from h]; simp)
      have progress : lexeme ≠ [] := by
        have positive : 0 < t.size := token_size_pos c rest
        intro nothing
        rcases List.take_eq_nil_iff.mp nothing with none | none
        · omega
        · cases none
      have whole : text.take (comments text) ++ lexeme ++ (c :: rest).drop t.size = text := by
        rw [List.append_assoc, List.take_append_drop, ← h, List.take_append_drop]
      rw [tokensFrom]
      split
      · next again => rw [again] at h; cases h
      · next c' rest' again =>
          obtain ⟨rfl, rfl⟩ : c = c' ∧ rest = rest' := by rw [again] at h; cases h; exact ⟨rfl, rfl⟩
          conv => arg 2; rw [← whole]
          exact .token closed progress (token_ne_endOfSource c rest) ih

namespace Laid

/-- Every token stands behind a part of the text from which its place is counted. -/
theorem position {place : Place} {text : List Char} {ts : List Token} (h : Laid place text ts) {t : Token}
    (ht : t ∈ ts) : ∃ ahead behind, text = ahead ++ (t.lexeme ++ behind) ∧ t.place = place.after ahead := by
  induction h with
  | @stop place gap final =>
      obtain rfl := List.mem_singleton.mp ht
      exact ⟨gap, [], by simp, rfl⟩
  | @token place gap lexeme rest kind ts closed progress notEnd laid ih =>
      rcases List.mem_cons.mp ht with rfl | later
      · exact ⟨gap, rest, by simp, rfl⟩
      · obtain ⟨ahead, behind, rfl, counted⟩ := ih later
        exact ⟨gap ++ (lexeme ++ ahead), behind, by simp, by rw [counted, Place.after_append, Place.after_append]⟩

theorem finish {place : Place} {text : List Char} {ts : List Token} (h : Laid place text ts) :
    ∃ body, ts = body ++ [⟨.endOfSource, place.after text, []⟩] ∧
      ∀ t ∈ body, t.kind ≠ .endOfSource ∧ t.lexeme ≠ [] := by
  induction h with
  | stop final => exact ⟨[], rfl, by simp⟩
  | @token place gap lexeme rest kind ts closed progress notEnd laid ih =>
      obtain ⟨body, rfl, inside⟩ := ih
      refine ⟨⟨kind, place.after gap, lexeme⟩ :: body, ?_, ?_⟩
      · rw [Place.after_append, Place.after_append, List.cons_append]
      · intro t member
        rcases List.mem_cons.mp member with rfl | later
        · exact ⟨notEnd, progress⟩
        · exact inside t later

theorem ordered {place : Place} {text : List Char} {ts : List Token} (h : Laid place text ts) :
    ts.Pairwise fun s t => s.stop ≤ t.start := by
  induction h with
  | stop final => exact List.pairwise_singleton _ _
  | @token place gap lexeme rest kind ts closed progress notEnd laid ih =>
      refine List.pairwise_cons.mpr ⟨?_, ih⟩
      intro t member
      obtain ⟨ahead, _, _, counted⟩ := laid.position member
      rw [Token.start, counted]
      exact Nat.le_add_right _ _

end Laid

end StyleAudit.Css
