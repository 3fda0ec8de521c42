import StyleAudit.Proofs.CursorSteps
import StyleAudit.Proofs.NestedNodes
import StyleAudit.Proofs.ReadingSteps
/-!
Component values and lists of nodes in front of a cursor. What a routine comes to there is told by the nodes: the cursor
is where one of them begins, and goes over some of them as a whole.
-/
namespace StyleAudit.Css
namespace Routine
variable {input : Input}

/-! Component values. -/

/-- Behind an unclosed block there are neither nodes nor tokens. -/
theorem atEnd_behind {last : Bool} {tail : List Token} (h : last = true → AtEnd tail) {ns : List Node}
    (hl : (last && ns.isEmpty) = true) : AtEnd (Node.listTokens ns ++ tail) := by
  obtain ⟨isLast, empty⟩ := (Bool.and_eq_true_iff).mp hl
  rw [List.isEmpty_iff.mp empty]
  exact h isLast

mutual
theorem value_ahead (n : Node) {around : Option Bracket} {last : Bool} {tail : List Token} {c : Cursor}
    (h : n.IsNested around last) (hl : last = true → AtEnd tail) (ahead : input.Ahead c (n.tokens ++ tail)) :
    Comes (value input) c (some (.ofNode n)) (c.after n.tokens []) := by
  apply Comes.succ
  simp only [value]
  refine .bind (.of (peek_ahead ahead)) ?_
  cases n with
  | leaf t =>
      obtain ⟨opens, notEnd, -⟩ := h
      simp only [Node.tokens, List.cons_append, List.head?_cons, Option.map_some, notEnd, if_false, opens]
      exact .bind (.of (next_ahead ahead)) (.done _ _)
  | block opening opener contents closer =>
      obtain ⟨opens, inside, closes, ends⟩ := h
      have notEnd : opener.kind ≠ .endOfSource := TokenKind.ne_of_opens opens rfl
      simp only [Node.tokens, List.cons_append, List.append_assoc] at ahead
      simp only [Node.tokens, List.cons_append, List.head?_cons, Option.map_some, notEnd, if_false, opens]
      have goesOn (n : Node) (hn : n ∈ contents) : (n.first.kind == .closing opening.closes) = false :=
        beq_false_of_ne (inside.mem hn).first_ne_closing
      have behind : input.Ahead (c.after [opener] []) (Node.listTokens contents ++ (closer.toList ++ tail)) :=
        Input.Ahead.after (by simpa using ahead) []
      have stops : ∀ t ∈ (closer.toList ++ tail).head?,
          t.kind = .endOfSource ∨ (t.kind == .closing opening.closes) = true := by
        intro t first
        cases closer with
        | some u => exact .inr (beq_iff_eq.mpr (Option.some.inj first ▸ closes u rfl))
        | none => exact .inl (hl (ends rfl) t first)
      have atEnd : closer.isNone = true → AtEnd (closer.toList ++ tail) := by
        intro none
        obtain rfl := Option.isNone_iff_eq_none.mp none
        exact hl (ends rfl)
      refine .bind (.of (next_ahead ahead)) ?_
      refine .bind (.call (valuesUntil_ahead contents inside goesOn atEnd stops behind []) (Nat.le_add_right _ _)) ?_
      refine .bind (.of (nextIf_closer (behind.after []) closes fun none => hl (ends none))) ?_
      simpa [ComponentValue.ofNode] using Comes.done _ _

theorem valuesUntil_ahead (ns : List Node) {around : Option Bracket} {last : Bool} {tail : List Token} {c : Cursor}
    {stops : TokenKind → Bool} (h : Node.AreNested around last ns) (goesOn : ∀ n ∈ ns, stops n.first.kind = false)
    (hl : last = true → AtEnd tail) (ends : ∀ t ∈ tail.head?, t.kind = .endOfSource ∨ stops t.kind = true)
    (ahead : input.Ahead c (Node.listTokens ns ++ tail)) (values : List ComponentValue) :
    Comes (valuesUntil input stops values) c (values ++ ComponentValue.ofNodes ns)
      (c.after (Node.listTokens ns) []) := by
  apply Comes.succ
  simp only [valuesUntil]
  refine .bind (.of (peek_ahead ahead)) ?_
  cases ns with
  | nil =>
      have same : values ++ ComponentValue.ofNodes [] = values := List.append_nil values
      rw [Node.listTokens, Cursor.after_nil, same]
      simp only [List.nil_append]
      cases first : tail.head? with
      | none => exact .done _ _
      | some t =>
          simp only [Option.map_some, if_pos (ends t first)]
          exact .done _ _
  | cons n ns =>
      obtain ⟨here, later⟩ := h
      have further : ¬ (n.first.kind = .endOfSource ∨ stops n.first.kind = true) := by
        rw [goesOn n List.mem_cons_self]
        exact fun stop => stop.elim here.first_ne_end Bool.false_ne_true
      rw [Node.listTokens, List.append_assoc] at ahead
      simp only [Node.listTokens, List.append_assoc, Node.head?_tokens, Option.map_some, if_neg further]
      have read := value_ahead n here (atEnd_behind hl) ahead
      refine .bind (.round (.call read (Nat.le_add_right _ _)) (Nat.lt_add_of_pos_right n.length_tokens_pos)) ?_
      have rest := valuesUntil_ahead ns later (fun m hm => goesOn m (List.mem_cons_of_mem n hm)) hl ends
        (ahead.after []) (values ++ [.ofNode n])
      simpa [ComponentValue.ofNodes] using rest
end

/-- The bracket that closes the block around a list of rules. -/
def around (nested : Bool) : Option Bracket := if nested then some .curly else none

/-- Nodes in front of the cursor, with the token that closes the block around them, if there is one, and what stands
behind it. -/
structure Listed (input : Input) (nested : Bool) (stop : Ending) (closer : Option Token) (behind : List Token)
    (c : Cursor) (ns : List Node) : Prop where
  nodes : Node.AreNested (around nested) closer.isNone ns
  ahead : input.Ahead c (Node.listTokens ns ++ (closer.toList ++ behind))
  closed : stop.closed = closer.isSome
  closes : ∀ t, closer = some t → nested = true ∧ t.kind = .closing .curly
  ends : closer = none → AtEnd behind
  line : input.lineOf (closer.toList ++ behind) = stop.line

theorem endsValue_first {n : Node} {last : Bool} (h : n.IsNested (around true) last) :
    endsValue n.first.kind = true ↔ n.kind? = some .semicolon := by
  rw [h.kind?_iff rfl, endsValue, Bool.or_eq_true, beq_iff_eq, beq_iff_eq, or_iff_left h.first_ne_closing]

theorem endsSelectors_first {nested : Bool} {n : Node} {last : Bool} (h : n.IsNested (around nested) last) :
    endsSelectors nested n.first.kind = n.isCurly := by
  have closing : (nested && n.first.kind == .closing .curly) = false := by
    cases nested with
    | false => rfl
    | true => exact beq_false_of_ne h.first_ne_closing
  rw [endsSelectors, closing, Bool.or_false, Bool.eq_iff_iff, beq_iff_eq, h.isCurly_iff]

theorem endsPrelude_first {nested : Bool} {n : Node} {last : Bool} (h : n.IsNested (around nested) last) :
    endsPrelude nested n.first.kind = true ↔ n.isCurly = true ∨ n.kind? = some .semicolon := by
  rw [endsPrelude, endsSelectors_first h, Bool.or_eq_true, beq_iff_eq, h.kind?_iff rfl, or_comm]

namespace Listed
variable {nested : Bool} {stop : Ending} {closer : Option Token} {behind : List Token} {c : Cursor} {n : Node}
  {ns part rest : List Node}

theorem split (h : Listed input nested stop closer behind c (part ++ rest)) :
    input.Ahead c (Node.listTokens part ++ (Node.listTokens rest ++ (closer.toList ++ behind))) := by
  simpa [Node.listTokens_append] using h.ahead

theorem after (part : List Node) (h : Listed input nested stop closer behind c (part ++ rest)) (issues : List Issue) :
    Listed input nested stop closer behind (c.after (Node.listTokens part) issues) rest :=
  { h with nodes := (Node.areNested_append.mp h.nodes).2, ahead := h.split.after issues }

theorem atEnd (h : Listed input nested stop closer behind c ns) (final : closer.isNone = true) :
    AtEnd (closer.toList ++ behind) := by
  obtain rfl := Option.isNone_iff_eq_none.mp final
  exact h.ends rfl

/-- The list in the block that the cursor is in front of. -/
theorem inside {opener : Token} {contents : List Node} {inner : Option Token}
    (h : Listed input nested stop closer behind c (.block (.bracket .curly) opener contents inner :: rest)) :
    Listed input true (stop.ofCloser inner) inner (Node.listTokens rest ++ (closer.toList ++ behind))
      (c.after [opener] []) contents := by
  obtain ⟨⟨opens, within, closes, unclosed⟩, -⟩ := h.nodes
  have last (final : inner = none) : rest = [] ∧ closer = none := by
    simpa [and_comm] using unclosed final
  refine ⟨within, Input.Ahead.after ?_ [], ?_, fun t same => ⟨rfl, closes t same⟩, fun final => ?_, ?_⟩
  · simpa [Node.listTokens, Node.tokens] using h.ahead
  · cases inner <;> rfl
  · obtain ⟨rfl, rfl⟩ := last final
    exact h.ends rfl
  · cases inner with
    | some t => rfl
    | none =>
        obtain ⟨rfl, rfl⟩ := last rfl
        exact h.line

theorem line_next (h : Listed input nested stop closer behind c ns) :
    input.lineOf (Node.listTokens ns ++ (closer.toList ++ behind)) = stop.next ns := by
  cases ns with
  | nil => exact h.line
  | cons n ns => rw [Node.listTokens, List.append_assoc, Input.lineOf, Node.head?_tokens]; rfl

/-- The component values up to one where the routine is told to stop. -/
theorem values (h : Listed input nested stop closer behind c ns) (stops : TokenKind → Bool)
    (closing : nested = true → stops (.closing .curly) = true) :
    ∃ part rest, ns = part ++ rest ∧ (∀ n ∈ part, stops n.first.kind = false) ∧
      (∀ n ∈ rest.head?, stops n.first.kind = true) ∧
      Comes (valuesUntil input stops []) c (ComponentValue.ofNodes part) (c.after (Node.listTokens part) []) := by
  obtain ⟨part, rest, rfl, goesOn, stopped⟩ := exists_split (stops ·.first.kind) ns
  refine ⟨part, rest, rfl, goesOn, stopped, ?_⟩
  have ends (t : Token) (first : t ∈ (Node.listTokens rest ++ (closer.toList ++ behind)).head?) :
      t.kind = .endOfSource ∨ stops t.kind = true := by
    cases rest with
    | nil =>
        cases closer with
        | none => exact .inl (h.ends rfl t first)
        | some u =>
            obtain rfl := Option.some.inj first
            obtain ⟨nested, kind⟩ := h.closes u rfl
            exact .inr (kind ▸ closing nested)
    | cons n rest =>
        rw [Node.listTokens, List.append_assoc, Node.head?_tokens] at first
        exact .inr (Option.some.inj first ▸ stopped n rfl)
  exact valuesUntil_ahead part (Node.areNested_append.mp h.nodes).1 goesOn (atEnd_behind h.atEnd) ends h.split []

theorem first_ne (h : Listed input nested stop closer behind c ns) {kind : TokenKind} (hs : kind ≠ .endOfSource)
    (hc : kind ≠ .closing .curly) (hn : ∀ n ∈ ns.head?, n.first.kind ≠ kind) :
    ∀ t ∈ (Node.listTokens ns ++ (closer.toList ++ behind)).head?, t.kind ≠ kind := by
  intro t first
  cases ns with
  | nil =>
      cases closer with
      | none => exact fun same => hs (same ▸ h.ends rfl t first)
      | some u =>
          obtain rfl := Option.some.inj first
          exact fun same => hc (same ▸ (h.closes u rfl).2)
  | cons n ns =>
      rw [Node.listTokens, List.append_assoc, Node.head?_tokens] at first
      exact Option.some.inj first ▸ hn n rfl

/-- The cursor goes over white space. -/
theorem space (h : Listed input nested stop closer behind c ns) :
    ∃ part rest, ns = part ++ rest ∧ (∀ n ∈ part, n.kind? = some .whitespace) ∧
      (∀ n ∈ rest.head?, n.kind? ≠ some .whitespace) ∧
      Comes (skipSpace input) c () (c.after (Node.listTokens part) []) := by
  obtain ⟨part, rest, rfl, white, other⟩ := exists_split (fun n => n.kind? != some .whitespace) ns
  replace white : ∀ n ∈ part, n.kind? = some .whitespace := fun n hn => by simpa using white n hn
  replace other : ∀ n ∈ rest.head?, n.kind? ≠ some .whitespace := fun n hn => by simpa using other n hn
  refine ⟨part, rest, rfl, white, other, ?_⟩
  induction part generalizing c with
  | nil =>
      rw [List.nil_append] at h
      have first (n : Node) (hn : n ∈ rest.head?) : n.first.kind ≠ .whitespace := fun same =>
        other n hn (((h.nodes.mem (List.mem_of_mem_head? hn)).kind?_iff rfl).mpr same)
      have differs := head?_kind_ne (h.first_ne (by decide) (by decide) first)
      apply Comes.succ
      simp only [skipSpace]
      refine .bind (.of (peek_ahead h.ahead)) ?_
      simp only [differs, if_false]
      simpa [Node.listTokens] using Comes.done () c
  | cons n part ih =>
      cases n with
      | block => cases white _ List.mem_cons_self
      | leaf t =>
          have here : input.Ahead c (t :: (Node.listTokens (part ++ rest) ++ (closer.toList ++ behind))) := h.ahead
          have kind : t.kind = .whitespace := Option.some.inj (white _ List.mem_cons_self)
          have later := ih (h.after [.leaf t] []) fun n hn => white n (List.mem_cons_of_mem _ hn)
          apply Comes.succ
          simp only [skipSpace]
          refine .bind (.of (peek_ahead here)) ?_
          simp only [List.head?_cons, Option.map_some, kind, if_true]
          refine .bind (.round (.of (next_ahead here)) (Nat.lt_succ_self _)) ?_
          simpa [Node.listTokens, Node.tokens] using later

/-- The cursor goes on to the block or the semicolon of an at-rule. -/
theorem prelude (h : Listed input nested stop closer behind c ns) :
    ∃ part rest, ns = part ++ rest ∧ (∀ n ∈ part, InPrelude n) ∧
      (∀ n ∈ rest.head?, n.isCurly = true ∨ n.kind? = some .semicolon) ∧
      Comes (valuesUntil input (endsPrelude nested) []) c (ComponentValue.ofNodes part)
        (c.after (Node.listTokens part) []) := by
  obtain ⟨part, rest, rfl, goesOn, stopped, read⟩ := h.values (endsPrelude nested) fun nested => by rw [nested]; rfl
  refine ⟨part, rest, rfl, fun n hn => ?_, fun n hn => ?_, read⟩
  · have further := goesOn n hn
    rw [Bool.eq_false_iff, Ne, endsPrelude_first (h.nodes.mem (List.mem_append_left rest hn)), not_or,
      Bool.not_eq_true] at further
    exact further
  · exact (endsPrelude_first (h.nodes.mem (List.mem_append_right part (List.mem_of_mem_head? hn)))).mp (stopped n hn)

/-- The cursor goes on to the block of a style rule. -/
theorem selectors (h : Listed input nested stop closer behind c ns) :
    ∃ part rest, ns = part ++ rest ∧ (∀ n ∈ part, n.isCurly = false) ∧ (∀ n ∈ rest.head?, n.isCurly = true) ∧
      Comes (valuesUntil input (endsSelectors nested) []) c (ComponentValue.ofNodes part)
        (c.after (Node.listTokens part) []) := by
  obtain ⟨part, rest, rfl, goesOn, stopped, read⟩ := h.values (endsSelectors nested) fun nested => by rw [nested]; rfl
  refine ⟨part, rest, rfl, fun n hn => ?_, fun n hn => ?_, read⟩
  · rw [← endsSelectors_first (h.nodes.mem (List.mem_append_left rest hn)), goesOn n hn]
  · rw [← endsSelectors_first (h.nodes.mem (List.mem_append_right part (List.mem_of_mem_head? hn))), stopped n hn]

theorem value (h : Listed input nested stop closer behind c (n :: rest)) :
    Comes (Routine.value input) c (some (.ofNode n)) (c.after (Node.listTokens [n]) []) := by
  rw [Node.listTokens, Node.listTokens, List.append_nil]
  refine value_ahead n h.nodes.1 (atEnd_behind h.atEnd) ?_
  simpa [Node.listTokens] using h.ahead

/-- The component values that the cursor has gone over, with their text. -/
theorem valuesAndText (h : Listed input nested stop closer behind c (part ++ rest)) (spelled : input.Spelled)
    {stops : TokenKind → Bool} {values : List ComponentValue}
    (read : Comes (valuesUntil input stops []) c values (c.after (Node.listTokens part) [])) :
    Comes (Routine.valuesAndText input stops) c (values, String.ofList (compactText (Node.listTokens part)))
      (c.after (Node.listTokens part) []) := by
  have text := textBetween_ahead (c := c.after (Node.listTokens part) []) spelled h.split
    (Node.AreNested.ne_end part (Node.areNested_append.mp h.nodes).1)
  change Comes (fun fuel => Routine.valuesAndText input stops fuel) _ _ _
  simp only [Routine.valuesAndText]
  refine .bind (.of rfl) ?_
  refine .bind (.call read (Nat.le_add_right _ _)) ?_
  refine .bind (.of rfl) ?_
  exact .bind (.of text) (.done _ _)

/-- The cursor goes on to the end of a declaration. -/
theorem toSemicolon (h : Listed input true stop closer behind c ns) :
    ∃ part rest, ns = part ++ rest ∧ (∀ n ∈ part, n.kind? ≠ some .semicolon) ∧
      (∀ n ∈ rest.head?, n.kind? = some .semicolon) ∧
      Comes (valuesUntil input endsValue []) c (ComponentValue.ofNodes part) (c.after (Node.listTokens part) []) := by
  obtain ⟨part, rest, rfl, goesOn, stopped, read⟩ := h.values endsValue fun _ => rfl
  refine ⟨part, rest, rfl, fun n hn => ?_, fun n hn => ?_, read⟩
  · rw [Ne, ← endsValue_first (h.nodes.mem (List.mem_append_left rest hn)), goesOn n hn]
    exact Bool.false_ne_true
  · exact (endsValue_first (h.nodes.mem (List.mem_append_right part (List.mem_of_mem_head? hn)))).mp (stopped n hn)

/-- The cursor goes over the semicolon of an at-rule, if that is where it is. -/
theorem semicolon (h : Listed input nested stop closer behind c ns) (hs : ∀ n ∈ ns.head?, n.kind? = some .semicolon) :
    ∃ found, nextIf input .semicolon c = .ok (found, c.after (Node.listTokens (ns.take 1)) []) := by
  cases ns with
  | nil =>
      refine ⟨false, ?_⟩
      rw [nextIf_other h.ahead (h.first_ne (by decide) (by decide) fun n hn => by cases hn)]
      exact congrArg (fun d => Except.ok (false, d)) c.after_nil.symm
  | cons n ns =>
      cases n with
      | leaf t => exact ⟨true, nextIf_ahead h.ahead (Option.some.inj (hs _ rfl))⟩
      | block => cases hs _ rfl

/-- A declaration that is not read. -/
theorem skip (h : Listed input true stop closer behind c ns) :
    ∃ part rest values, ns = part ++ rest ∧
      Comes (valuesUntil input endsValue []) c values (c.after (Node.listTokens part) []) ∧
      readDeclarations stop .skipped ns = readDeclarations stop .nothing rest := by
  obtain ⟨part, rest, rfl, further, ended, read⟩ := h.toSemicolon
  have skipped (n : Node) (hn : n ∈ part) : declarationStep stop .skipped n = ({}, .skipped) := by
    rw [declarationStep, if_neg (further n hn)]
  refine ⟨part, rest, _, rfl, read, ?_⟩
  rw [readDeclarations_idle skipped, readDeclarations_skippedEnd ended]

end Listed

end Routine
end StyleAudit.Css
