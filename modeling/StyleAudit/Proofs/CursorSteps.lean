import StyleAudit.Proofs.ReadingSteps
import StyleAudit.Proofs.TokenCursor
/-!
What the routines of a cursor come to once they have fuel enough: how their results are put together, and how the cursor
looks at single tokens, goes over them and takes texts from the source.
-/
namespace StyleAudit.Css

/-- The cursor when it has gone over some tokens, and issues were met there. -/
def Cursor.after (c : Cursor) (ts : List Token) (issues : List Issue) : Cursor :=
  ⟨c.position + ts.length, c.issues ++ issues⟩

namespace Cursor

@[simp] theorem position_after (c : Cursor) (ts : List Token) (issues : List Issue) :
    (c.after ts issues).position = c.position + ts.length := rfl

@[simp] theorem after_nil (c : Cursor) : c.after [] [] = c := by
  obtain ⟨position, issues⟩ := c
  simp [after]

@[simp] theorem after_after (c : Cursor) (ts us : List Token) (issues more : List Issue) :
    (c.after ts issues).after us more = c.after (ts ++ us) (issues ++ more) := by
  simp [after, Nat.add_assoc]

end Cursor

/-- The tokens in front of a cursor. -/
structure Input.Ahead (input : Input) (c : Cursor) (ts : List Token) : Prop where
  inside : c.position ≤ input.tokens.length
  rest : input.tokens.drop c.position = ts

/-- Every token is where the source has its text. -/
def Input.Spelled (input : Input) : Prop :=
  ∀ t ∈ input.tokens, t.stop ≤ input.source.length ∧ slice input.source t.start t.stop = t.lexeme

/-- Tokens at the end of the source: an end mark is the first of them, or there are none. -/
def AtEnd (ts : List Token) : Prop := ∀ t ∈ ts.head?, t.kind = .endOfSource

/-- The line of the first of some tokens; if there are none, that of the last token of all. -/
def Input.lineOf (input : Input) (ts : List Token) : Nat := (ts.head?.or input.tokens.getLast?).elim 0 Token.line

namespace Input.Ahead
variable {input : Input} {c : Cursor} {ts us : List Token}

theorem after (h : input.Ahead c (ts ++ us)) (issues : List Issue) : input.Ahead (c.after ts issues) us where
  inside := by
    have size := congrArg List.length h.rest
    rw [List.length_drop, List.length_append] at size
    have := h.inside
    rw [Cursor.position_after]
    omega
  rest := by rw [Cursor.position_after, ← List.drop_drop, h.rest, List.drop_left]

theorem head? (h : input.Ahead c ts) : input.tokens[c.position]? = ts.head? := by
  rw [← h.rest, List.head?_drop]

theorem lineAt (h : input.Ahead c ts) : Routine.lineAt input c.position = input.lineOf ts := by
  rw [Routine.lineAt, h.head?, Input.lineOf]

theorem mem (h : input.Ahead c ts) {t : Token} (ht : t ∈ ts) : t ∈ input.tokens :=
  List.mem_of_mem_drop (h.rest ▸ ht)

end Input.Ahead

@[simp] theorem Input.lineOf_cons (input : Input) (t : Token) (ts : List Token) : input.lineOf (t :: ts) = t.line := rfl

namespace Routine
variable {α β : Type} {c c' c'' : Cursor} {a : α} {b : β}

theorem bind_ok {r : Routine α} {f : α → Routine β} (h : r c = .ok (a, c')) : (r >>= f) c = f a c' := by
  change (r c >>= fun p => f p.1 p.2) = _
  rw [h]
  rfl

/-- With fuel enough the routine gives the result, and leaves the second cursor where it found the first. -/
def Comes (r : Nat → Routine α) (c : Cursor) (a : α) (c' : Cursor) : Prop :=
  ∃ bound, ∀ fuel, bound ≤ fuel → r fuel c = .ok (a, c')

namespace Comes

theorem of {r : Routine α} (h : r c = .ok (a, c')) : Comes (fun _ => r) c a c' := ⟨0, fun _ _ => h⟩

theorem done (a : α) (c : Cursor) : Comes (fun _ => pure a) c a c := .of rfl

theorem bind {r : Nat → Routine α} {f : Nat → α → Routine β} (h : Comes r c a c')
    (h' : Comes (fun fuel => f fuel a) c' b c'') : Comes (fun fuel => r fuel >>= f fuel) c b c'' := by
  obtain ⟨m, first⟩ := h
  obtain ⟨n, second⟩ := h'
  refine ⟨max m n, fun fuel enough => ?_⟩
  have later := second fuel (Nat.le_trans (Nat.le_max_right m n) enough)
  exact (bind_ok (first fuel (Nat.le_trans (Nat.le_max_left m n) enough))).trans later

/-- A routine that takes one from the fuel it is given. -/
theorem succ {r : Nat → Routine α} (h : Comes (fun fuel => r (fuel + 1)) c a c') : Comes r c a c' := by
  obtain ⟨m, h⟩ := h
  refine ⟨m + 1, fun fuel enough => ?_⟩
  obtain ⟨fuel, rfl⟩ : ∃ k, fuel = k + 1 := ⟨fuel - 1, by omega⟩
  exact h fuel (by omega)

theorem round {r : Nat → Routine α} (h : Comes r c a c') (forward : c.position < c'.position) :
    Comes (fun fuel => Routine.round (r fuel)) c a c' := by
  obtain ⟨m, h⟩ := h
  refine ⟨m, fun fuel enough => ?_⟩
  simp only [Routine.round, h fuel enough, if_pos forward]

theorem call {r : Nat → Routine α} (h : Comes r c a c') (kept : c.position ≤ c'.position) :
    Comes (fun fuel => Routine.call (r fuel)) c a c' := by
  obtain ⟨m, h⟩ := h
  refine ⟨m, fun fuel enough => ?_⟩
  simp only [Routine.call, h fuel enough, if_pos kept]

end Comes

/-! Single tokens. -/

section
variable {input : Input} {ts us : List Token} {t : Token}

theorem peek_ahead (h : input.Ahead c ts) : peek input c = .ok (ts.head?.map Token.kind, c) := by
  rw [peek, h.head?]

theorem next_ahead (h : input.Ahead c (t :: ts)) : next input c = .ok (some t, c.after [t] []) := by
  simp [next, h.head?, Cursor.after]

theorem report_ahead (h : input.Ahead c ts) (defect : Defect) :
    report input defect c = .ok ((), c.after [] [⟨defect, input.lineOf ts⟩]) := by
  rw [report, h.lineAt]
  rfl

theorem reportIf_ahead (h : input.Ahead c ts) (condition : Bool) (defect : Defect) :
    reportIf input condition defect c =
      .ok ((), c.after [] (if condition then [⟨defect, input.lineOf ts⟩] else [])) := by
  cases condition with
  | true => exact report_ahead h defect
  | false => exact congrArg (fun d => Except.ok ((), d)) c.after_nil.symm

theorem head?_kind_ne {kind : TokenKind} (h : ∀ t ∈ ts.head?, t.kind ≠ kind) : ts.head?.map Token.kind ≠ some kind := by
  intro same
  obtain ⟨t, first, rfl⟩ := Option.map_eq_some_iff.mp same
  exact h t first rfl

theorem nextIf_ahead (h : input.Ahead c (t :: ts)) {kind : TokenKind} (same : t.kind = kind) :
    nextIf input kind c = .ok (true, c.after [t] []) := by
  rw [nextIf, bind_ok (peek_ahead h), List.head?_cons, Option.map_some, same, if_pos rfl]
  exact bind_ok (next_ahead h)

theorem nextIf_other (h : input.Ahead c ts) {kind : TokenKind} (other : ∀ t ∈ ts.head?, t.kind ≠ kind) :
    nextIf input kind c = .ok (false, c) := by
  rw [nextIf, bind_ok (peek_ahead h), if_neg (head?_kind_ne other)]
  rfl

/-- The closing token of a block, or the end of the source. -/
theorem nextIf_closer {closer : Option Token} (h : input.Ahead c (closer.toList ++ ts)) {b : Bracket}
    (closes : ∀ t, closer = some t → t.kind = .closing b) (ends : closer = none → AtEnd ts) :
    nextIf input (.closing b) c = .ok (closer.isSome, c.after closer.toList []) := by
  cases closer with
  | some t => exact nextIf_ahead h (closes t rfl)
  | none =>
      rw [nextIf_other h fun t first same => by rw [ends rfl t first] at same; cases same]
      exact congrArg (fun d => Except.ok (false, d)) c.after_nil.symm

end

/-! Texts. -/

section
variable {input : Input} {ts tail : List Token}

theorem spelled_ahead (spelled : input.Spelled) {t : Token} (ht : t ∈ input.tokens) :
    Routine.spelled input t c = .ok (t, c) := by
  obtain ⟨inside, text⟩ := spelled t ht
  rw [Routine.spelled]
  split
  · rfl
  · rw [if_pos ⟨Nat.le_add_right t.start t.lexeme.length, inside⟩, text]
    rfl

theorem mapM_spelled (spelled : input.Spelled) (h : ∀ t ∈ ts, t ∈ input.tokens) :
    ts.mapM (Routine.spelled input) c = .ok (ts, c) := by
  induction ts with
  | nil => rfl
  | cons t ts ih =>
      rw [List.mapM_cons, bind_ok (spelled_ahead spelled (h t List.mem_cons_self)),
        bind_ok (ih fun u hu => h u (List.mem_cons_of_mem t hu))]
      rfl

/-- The text of the tokens that the cursor has gone over. -/
theorem textBetween_ahead (spelled : input.Spelled) {start : Cursor} (h : input.Ahead start (ts ++ tail))
    (inside : ∀ t ∈ ts, t.kind ≠ .endOfSource) :
    textBetween input start.position (start.position + ts.length) c = .ok (String.ofList (compactText ts), c) := by
  have size := congrArg List.length h.rest
  rw [List.length_drop, List.length_append] at size
  have known := h.inside
  have tokens : tokensBetween input start.position (start.position + ts.length) = pure ts := by
    rw [tokensBetween, if_pos ⟨by omega, by omega⟩, h.rest, Nat.add_sub_cancel_left, List.take_left]
  have kept : ts.filter (·.kind ≠ .endOfSource) = ts := List.filter_eq_self.mpr fun t ht => by simpa using inside t ht
  rw [textBetween, tokens, pure_bind, kept,
    bind_ok (mapM_spelled spelled fun t ht => h.mem (List.mem_append_left tail ht))]
  rfl

/-- The selectors' texts. Their first one goes on from what the cursor has gone over since the start. -/
theorem textsFrom_ahead (spelled : input.Spelled) {start : Cursor} (depth : Nat) (begun : List Token)
    (h : input.Ahead start (begun ++ (ts ++ tail))) (inside : ∀ t ∈ begun ++ ts, t.kind ≠ .endOfSource) :
    textsFrom input depth start.position (start.position + begun.length) ts.length c =
      .ok (((splitSelectors depth ts).modifyHead (begun ++ ·)).map
        fun part => String.ofList (compactText part), c) := by
  have begunInside (t : Token) (ht : t ∈ begun) : t.kind ≠ .endOfSource := inside t (List.mem_append_left ts ht)
  induction ts generalizing start depth begun with
  | nil =>
      rw [List.length_nil, textsFrom, bind_ok (textBetween_ahead spelled h begunInside)]
      simp only [splitSelectors, List.modifyHead_cons, List.append_nil]
      rfl
  | cons t ts ih =>
      have here : tokenAt input (start.position + begun.length) = pure t := by
        have found : input.tokens[start.position + begun.length]? = some t := (h.after []).head?
        rw [tokenAt, found]
      have further (deeper : Nat) :
          textsFrom input deeper start.position (start.position + begun.length + 1) ts.length c =
          .ok ((((splitSelectors deeper ts).modifyHead (t :: ·)).modifyHead (begun ++ ·)).map
            fun part => String.ofList (compactText part), c) := by
        have parts : ((splitSelectors deeper ts).modifyHead (t :: ·)).modifyHead (begun ++ ·) =
            (splitSelectors deeper ts).modifyHead (begun ++ [t] ++ ·) := by
          rw [List.modifyHead_modifyHead]
          simp only [Function.comp_def, List.append_assoc, List.singleton_append]
        have length : start.position + begun.length + 1 = start.position + (begun ++ [t]).length := by
          rw [List.length_append, List.length_singleton, Nat.add_assoc]
        rw [parts, length]
        exact ih deeper (begun ++ [t]) (by simpa using h) (by simpa using inside)
          fun u hu => inside u (by simp at hu ⊢; tauto)
      rw [List.length_cons, textsFrom, here, pure_bind]
      by_cases comma : t.kind = .comma ∧ depth = 0
      · have behind : input.Ahead (start.after (begun ++ [t]) []) ([] ++ (ts ++ tail)) :=
          Input.Ahead.after (by simpa using h) []
        have all : (splitSelectors 0 ts).modifyHead ([] ++ ·) = splitSelectors 0 ts := congrFun List.modifyHead_id _
        have more := ih 0 [] behind (fun u hu => inside u (List.mem_append_right begun (.tail t hu))) (by simp)
        rw [all] at more
        simp only [Cursor.position_after, List.length_append, List.length_singleton, List.length_nil, Nat.add_zero,
          ← Nat.add_assoc] at more
        obtain ⟨kind, rfl⟩ := comma
        have opens : ¬ t.kind.opensBlock = true := by rw [kind]; decide
        have closes : ¬ t.kind.closesBlock = true := by rw [kind]; decide
        have comma : t.kind = .comma ∧ 0 = 0 := ⟨kind, rfl⟩
        rw [splitSelectors, if_pos comma, if_neg opens, if_neg closes, if_pos comma,
          bind_ok (textBetween_ahead spelled h begunInside), bind_ok more]
        simp only [List.modifyHead_cons, List.append_nil, List.map_cons]
        rfl
      · rw [splitSelectors_cons comma]
        by_cases opens : t.kind.opensBlock = true
        · rw [if_pos opens, if_pos opens]
          exact further _
        · rw [if_neg opens, if_neg opens]
          by_cases closes : t.kind.closesBlock = true
          · rw [if_pos closes, if_pos closes]
            exact further _
          · rw [if_neg closes, if_neg closes, if_neg comma]
            exact further _

/-- The selectors of a rule, when the cursor has gone over the nodes in front of its block. -/
theorem selectorsBetween_ahead (spelled : input.Spelled) {start : Cursor} {nodes : List Node}
    (h : input.Ahead start (Node.listTokens nodes ++ tail))
    (inside : ∀ t ∈ Node.listTokens nodes, t.kind ≠ .endOfSource) (line : Nat) :
    selectorsBetween input line start.position (start.position + (Node.listTokens nodes).length) c =
      .ok ((selectors line nodes.reverse).items, c.after [] (selectors line nodes.reverse).issues) := by
  have all : (splitSelectors 0 (Node.listTokens nodes)).modifyHead ([] ++ ·) =
      splitSelectors 0 (Node.listTokens nodes) :=
    congrFun List.modifyHead_id _
  have texts := textsFrom_ahead (c := c) spelled 0 [] h inside
  rw [all, List.length_nil, Nat.add_zero] at texts
  rw [selectorsBetween, Nat.add_sub_cancel_left, bind_ok texts, selectors, List.reverse_reverse]
  dsimp only
  split
  · exact congrArg (fun d => Except.ok (_, d)) c.after_nil.symm
  · rfl

end
end Routine
end StyleAudit.Css
