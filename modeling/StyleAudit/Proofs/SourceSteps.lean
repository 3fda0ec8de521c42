import StyleAudit.Proofs.SourceCursor
/-!
What a routine of a source cursor reads. A routine is told by the value that it reads from the text in front of the cursor and by
the number of characters that takes; it leaves the cursor behind them, on their line. Routines one behind the other, characters
that are put back, and loops each have a rule.
-/
namespace StyleAudit.Css.SourceCursor

/-- The text in front of a cursor that has counted everything behind it, characters and line ends. Every routine keeps to
this. -/
def Ahead (source : List Char) (place : Place) (text : List Char) : Prop :=
  ∃ before, source = before ++ text ∧ place = ({} : Place).after before

namespace Ahead
variable {source text : List Char} {place : Place}

theorem start : Ahead source {} source := ⟨[], rfl, rfl⟩

theorem after {part rest : List Char} (h : Ahead source place (part ++ rest)) : Ahead source (place.after part) rest := by
  obtain ⟨before, rfl, rfl⟩ := h
  exact ⟨before ++ part, (List.append_assoc _ _ _).symm, (Place.after_append _ _ _).symm⟩

theorem behind (h : Ahead source place text) (n : Nat) : Ahead source (place.after (text.take n)) (text.drop n) :=
  after (by rwa [List.take_append_drop])

theorem length (h : Ahead source place text) : place.offset + text.length = source.length := by
  obtain ⟨before, rfl, rfl⟩ := h
  simp [Place.after]

theorem getElem? (h : Ahead source place text) (k : Nat) : source[place.offset + k]? = text[k]? := by
  obtain ⟨before, rfl, rfl⟩ := h
  have place : (({} : Place).after before).offset = before.length := Nat.zero_add _
  rw [place, List.getElem?_append_right (Nat.le_add_right _ _), Nat.add_sub_cancel_left]

end Ahead

/-- From a text in front of the cursor the routine reads a value, and moves the cursor over that many of its characters. -/
def Reads (source : List Char) {α : Type} (r : Routine α) (text : List Char) (a : α) (n : Nat) : Prop :=
  ∀ place, Ahead source place text → r place = .ok (a, place.after (text.take n))

/-- So does a routine that starts behind the first of the characters. -/
def ReadsBack (source : List Char) {α : Type} (r : Routine α) (c : Char) (rest : List Char) (a : α) (n : Nat) : Prop :=
  ∀ place, Ahead source place (c :: rest) → r (place.after [c]) = .ok (a, place.after ((c :: rest).take n))

section
variable {source text rest : List Char} {c : Char} {α β : Type} {a : α} {b : β} {m n : Nat}

theorem bind_ok {r : Routine α} {f : α → Routine β} {place behind : Place} (h : r place = .ok (a, behind)) :
    (r >>= f) place = f a behind := by
  change (r place >>= fun p => f p.1 p.2) = _
  rw [h]
  rfl

/-! Single characters. -/

theorem peekAt_ahead {place : Place} (h : Ahead source place text) (k : Nat) : peekAt source k place = .ok (text[k]?, place) := by
  rw [peekAt, h.getElem?]

theorem peek_ahead {place : Place} (h : Ahead source place text) : peek source place = .ok (text.head?, place) := by
  rw [peek, peekAt_ahead h, List.head?_eq_getElem?]

theorem next_ahead {place : Place} (h : Ahead source place (c :: rest)) : next source place = .ok (some c, place.after [c]) := by
  have first := h.getElem? 0
  rw [Nat.add_zero, List.getElem?_cons_zero] at first
  simp only [next, first, Place.after, List.count_singleton, beq_iff_eq]
  by_cases line : c = '\n' <;> simp [line]

theorem next_nothing {place : Place} (h : Ahead source place []) : next source place = .ok (none, place) := by
  have nothing := h.getElem? 0
  rw [Nat.add_zero, List.getElem?_nil] at nothing
  simp only [next, nothing]

theorem putBack_after {place : Place} (h : Ahead source place (c :: rest)) :
    putBack source (place.after [c]) = .ok ((), place) := by
  have first := h.getElem? 0
  rw [Nat.add_zero, List.getElem?_cons_zero] at first
  simp only [putBack, Place.after, List.length_singleton, first, List.count_singleton, beq_iff_eq]
  by_cases line : c = '\n' <;> simp [line]

section
variable {body : α → Routine (Turn α β)} {z : α} {place behind : Place}

theorem loop_done (h : body a place = .ok (.done b, behind)) : loop source body a place = .ok (b, behind) := by
  rw [loop, h]

theorem loop_again (h : body a place = .ok (.again z, behind))
    (moved : place.offset < behind.offset ∧ behind.offset ≤ source.length) :
    loop source body a place = loop source body z behind := by
  rw [loop, h]
  exact dif_pos moved

end

namespace Reads

theorem done (a : α) : Reads source (pure a) text a 0 := fun _ _ => rfl

theorem bind {r : Routine α} {f : α → Routine β} (h : Reads source r text a m) (later : Reads source (f a) (text.drop m) b n) :
    Reads source (r >>= f) text b (m + n) := by
  intro place ahead
  rw [bind_ok (h place ahead), later _ (ahead.behind m), ← Place.after_append, ← List.take_add]

/-- Where it is known what is left to read. -/
theorem followed {r : Routine α} {f : α → Routine β} {part : List Char} (h : Reads source r text a part.length)
    (whole : part ++ rest = text) (later : Reads source (f a) rest b n) : Reads source (r >>= f) text b (part.length + n) := by
  subst whole
  refine h.bind ?_
  rwa [List.drop_left]

/-- Where nothing more is read. -/
theorem yield {r : Routine α} {f : α → Routine β} (h : Reads source r text a n) (same : f a = pure b) :
    Reads source (r >>= f) text b n := by
  have nothing : Reads source (f a) (text.drop n) b 0 := by
    rw [same]
    exact .done b
  exact h.bind nothing

/-- Where something is looked at first. -/
theorem looked {r : Routine α} {f : α → Routine β} (h : Reads source r text a 0) (later : Reads source (f a) text b n) :
    Reads source (r >>= f) text b n :=
  Nat.zero_add n ▸ h.bind later

theorem peekAt {f : Option Char → Routine β} (k : Nat) (h : Reads source (f text[k]?) text b n) :
    Reads source (peekAt source k >>= f) text b n := by
  intro place ahead
  rw [bind_ok (peekAt_ahead ahead k), h place ahead]

theorem peek {f : Option Char → Routine β} (h : Reads source (f text.head?) text b n) :
    Reads source (SourceCursor.peek source >>= f) text b n := by
  intro place ahead
  rw [bind_ok (peek_ahead ahead), h place ahead]

theorem back {f : Option Char → Routine β} (h : ReadsBack source (f (some c)) c rest b n) :
    Reads source (next source >>= f) (c :: rest) b n := by
  intro place ahead
  rw [bind_ok (next_ahead ahead), h place ahead]

/-- A routine that reads on behind the character. -/
theorem onward {r : Routine β} (h : Reads source r rest b n) : ReadsBack source r c rest b (1 + n) := by
  intro place ahead
  rw [h _ ahead.after, ← Place.after_append, Nat.add_comm 1, List.take_succ_cons, List.singleton_append]

theorem next {f : Option Char → Routine β} (h : Reads source (f (some c)) rest b n) :
    Reads source (next source >>= f) (c :: rest) b (1 + n) := .back h.onward

/-- Where no more than that character is read. -/
theorem last {f : Option Char → Routine β} (h : Reads source (f (some c)) rest b 0) :
    Reads source (SourceCursor.next source >>= f) (c :: rest) b 1 := h.next

theorem one {f : Option Char → Routine β} (same : f (some c) = pure b) :
    Reads source (SourceCursor.next source >>= f) (c :: rest) b 1 := by
  refine .last ?_
  rw [same]
  exact .done b

theorem nothing {f : Option Char → Routine β} (h : Reads source (f none) [] b n) :
    Reads source (SourceCursor.next source >>= f) [] b n := by
  intro place ahead
  rw [bind_ok (next_nothing ahead), h place ahead]

/-- A character that is put back is read by what comes then. -/
theorem putBack {f : Unit → Routine β} (h : Reads source (f ()) (c :: rest) b n) :
    ReadsBack source (putBack source >>= f) c rest b n := by
  intro place ahead
  rw [bind_ok (putBack_after ahead), h place ahead]

theorem peekBack {f : Option Char → Routine β} (h : ReadsBack source (f rest.head?) c rest b n) :
    ReadsBack source (SourceCursor.peek source >>= f) c rest b n := by
  intro place ahead
  have behind : Ahead source (place.after [c]) rest := ahead.after
  rw [bind_ok (peek_ahead behind), h place ahead]

/-! Loops. -/

section
variable {body : α → Routine (Turn α β)} {z : α}

theorem ends (h : Reads source (body a) text (.done b) n) : Reads source (loop source body a) text b n :=
  fun place ahead => loop_done (h place ahead)

theorem again (h : Reads source (body a) text (.again z) m) (forward : 0 < m) (inside : m ≤ text.length)
    (later : Reads source (loop source body z) (text.drop m) b n) : Reads source (loop source body a) text b (m + n) := by
  intro place ahead
  have size := ahead.length
  have moved : place.offset < (place.after (text.take m)).offset ∧ (place.after (text.take m)).offset ≤ source.length := by
    rw [Place.after, List.length_take_of_le inside]
    exact ⟨by simpa using forward, by simp only; omega⟩
  rw [loop_again (h place ahead) moved, later _ (ahead.behind m), ← Place.after_append, ← List.take_add]

/-- A round over one character and some more. -/
theorem round (h : Reads source (body a) (c :: rest) (.again z) (1 + m)) (inside : m ≤ rest.length)
    (later : Reads source (loop source body z) (rest.drop m) b n) : Reads source (loop source body a) (c :: rest) b (1 + m + n) := by
  refine h.again (by omega) (by rw [List.length_cons]; omega) ?_
  rw [Nat.add_comm, List.drop_succ_cons]
  exact later

/-- A round over one character. -/
theorem step (h : Reads source (body a) (c :: rest) (.again z) 1) (later : Reads source (loop source body z) rest b n) :
    Reads source (loop source body a) (c :: rest) b (1 + n) :=
  h.again Nat.one_pos (by simp) later

end
end Reads
end

end StyleAudit.Css.SourceCursor
