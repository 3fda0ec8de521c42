import StyleAudit.Proofs.SourceTokens
/-!
Token spans tile their source. The cursor ends on every source, and between the offsets that it leaves with its tokens stands
the whole of it: tokens with the texts they were read from, and comments.
-/
namespace StyleAudit.Css

/-- What stands in front of each token: the part of the source from the end of the token before it, or from the given
offset. -/
def gapsFrom (source : List Char) (offset : Nat) : List SpannedToken → List (List Char)
  | [] => []
  | t :: rest => slice source offset t.start :: gapsFrom source t.stop rest

/-- How tokens with their spans lie in a source. -/
structure Tiles (source : List Char) (ts : List SpannedToken) : Prop where
  /-- The one end mark is the last token and takes no room; every other token takes some of the source. -/
  finish : ∃ body stop, ts = body ++ [stop] ∧
    (stop.kind = .endOfSource ∧ stop.start = source.length ∧ stop.stop = source.length) ∧
    ∀ t ∈ body, t.kind ≠ .endOfSource ∧ t.start < t.stop ∧ t.stop ≤ source.length
  ordered : ts.Pairwise fun s t => s.stop ≤ t.start
  /-- Only comments stand between tokens, and only the last of them may be open. -/
  gaps : ∃ between last, gapsFrom source 0 ts = between ++ [last] ∧
    (∀ gap ∈ between, ClosedComments gap) ∧ FinalComments last
  /-- Gaps and tokens in turn are the whole source. -/
  covers : (List.zipWith (fun gap t => gap ++ slice source t.start t.stop) (gapsFrom source 0 ts) ts).flatten = source
  lines : ∀ t ∈ ts, t.line = 1 + (slice source 0 t.start).count '\n'

namespace Laid

theorem gaps {place : Place} {text : List Char} {ts : List Token} (h : Laid place text ts)
    (before : List Char) (hp : place.offset = before.length) :
    ∃ between last, gapsFrom (before ++ text) before.length (ts.map Token.spanned) = between ++ [last] ∧
      (∀ gap ∈ between, ClosedComments gap) ∧ FinalComments last := by
  induction h generalizing before with
  | @stop place gap final =>
      refine ⟨[], gap, ?_, by simp, final⟩
      have here := slice_between before gap []
      rw [List.append_nil] at here
      simp [gapsFrom, Token.spanned, Token.start, Place.after, hp, here]
  | @token place gap lexeme rest kind ts closed progress notEnd laid ih =>
      obtain ⟨between, last, same, inner, final⟩ := ih (before ++ gap ++ lexeme) (by simp [Place.after, hp]; omega)
      refine ⟨gap :: between, last, ?_, by simpa using ⟨closed, inner⟩, final⟩
      have here := slice_between before gap (lexeme ++ rest)
      simp only [List.append_assoc, List.length_append] at same here ⊢
      simp [gapsFrom, Token.spanned, Token.start, Token.stop, Place.after, hp, here, same, Nat.add_assoc]

theorem covers {place : Place} {text : List Char} {ts : List Token} (h : Laid place text ts)
    (before : List Char) (hp : place.offset = before.length) :
    (List.zipWith (fun gap t => gap ++ slice (before ++ text) t.start t.stop)
      (gapsFrom (before ++ text) before.length (ts.map Token.spanned)) (ts.map Token.spanned)).flatten = text := by
  induction h generalizing before with
  | @stop place gap final =>
      have here := slice_between before gap []
      rw [List.append_nil] at here
      simp [gapsFrom, Token.spanned, Token.start, Token.stop, Place.after, hp, here]
      simp [slice]
  | @token place gap lexeme rest kind ts closed progress notEnd laid ih =>
      have tail := ih (before ++ gap ++ lexeme) (by simp [Place.after, hp]; omega)
      have here := slice_between before gap (lexeme ++ rest)
      have there := slice_between (before ++ gap) lexeme rest
      simp only [List.append_assoc, List.length_append, Nat.add_assoc] at tail here there ⊢
      simp only [gapsFrom, Token.spanned, Token.start, Token.stop, Place.after, hp, Nat.add_assoc, List.map_cons,
        List.zipWith_cons_cons, List.flatten_cons, here, there] at tail ⊢
      rw [tail, List.append_assoc]

/-- The offsets and the line of a token are those of the text it was read from. -/
theorem counted {source : List Char} {ts : List Token} (h : Laid {} source ts) {t : Token} (ht : t ∈ ts) :
    t.lexeme = slice source t.start t.stop ∧ t.stop ≤ source.length ∧ t.line = 1 + (slice source 0 t.start).count '\n' := by
  obtain ⟨ahead, behind, rfl, place⟩ := h.position ht
  have start : t.start = ahead.length := by simp [Token.start, place, Place.after]
  have stop : t.stop = ahead.length + t.lexeme.length := by simp [Token.stop, place, Place.after]
  rw [start, stop]
  exact ⟨(slice_between _ _ _).symm, by simp, by simp [Token.line, place, Place.after, slice]⟩

theorem tiles {source : List Char} {ts : List Token} (h : Laid {} source ts) : Tiles source (ts.map Token.spanned) where
  finish := by
    obtain ⟨body, rfl, inside⟩ := h.finish
    refine ⟨body.map Token.spanned, _, by rw [List.map_append, List.map_singleton],
      ⟨rfl, by simp [Token.spanned, Token.start, Place.after], by simp [Token.spanned, Token.stop, Place.after]⟩, ?_⟩
    intro s member
    obtain ⟨t, read, rfl⟩ := List.mem_map.mp member
    have some := List.length_pos_iff.mpr (inside t read).2
    refine ⟨(inside t read).1, ?_, (h.counted (List.mem_append_left _ read)).2.1⟩
    simp only [Token.spanned, Token.start, Token.stop]
    omega
  ordered := List.pairwise_map.mpr h.ordered
  gaps := h.gaps [] rfl
  covers := h.covers [] rfl
  lines := by
    intro s member
    obtain ⟨t, read, rfl⟩ := List.mem_map.mp member
    exact (h.counted read).2.2

end Laid

/-- The cursor goes through every style sheet without a fault, and its tokens, with the comments between them, are the
normalized style sheet. They are the tokens of the style sheet, each of which holds the text between its offsets. -/
theorem scan_tiles (css : String) : ∃ ts, SourceCursor.scan (normalize css.toList) = .ok ts ∧
    Tiles (normalize css.toList) ts ∧ (tokenize css).map Token.spanned = ts ∧
    ∀ t ∈ tokenize css, t.lexeme = slice (normalize css.toList) t.start t.stop := by
  have laid : Laid {} (normalize css.toList) (tokenize css) := tokensFrom_laid {} _
  exact ⟨_, SourceCursor.scan_eq _, laid.tiles, rfl, fun t read => (laid.counted read).1⟩

end StyleAudit.Css
