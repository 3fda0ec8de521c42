import Mathlib.Data.List.Induction
import StyleAudit.Report.Progress
/-!
Progress lines that fit. Whatever a run has reported so far, a line that shows a name is as wide as the terminal, and what
is shown is the name or as much of its end as there is room for.
-/
namespace StyleAudit.Report.Progress

/-! The reports of a run. -/

/-- What a run reports: how many files there are, or that one of them is done. -/
inductive Event where
  | total (n : Nat)
  | done (name : String)
  deriving DecidableEq, Repr

def heed (p : Progress) : Event → Progress
  | .total n => p.start n
  | .done _ => p.advance

/-- What is written for an event. -/
def reply (p : Progress) : Event → String
  | .total _ => ""
  | .done name => p.mark name

def replies (p : Progress) : List Event → List String
  | [] => []
  | e :: rest => p.reply e :: (p.heed e).replies rest

/-- The total is the one reported last, zero if there was none, and so many files were done since. -/
def HasCounted (events : List Event) (total complete : Nat) : Prop :=
  ∃ names : List String, names.length = complete ∧
    ((events = names.map .done ∧ total = 0) ∨ (.total total :: names.map .done) <:+ events)

theorem replies_append (p : Progress) (front back : List Event) :
    p.replies (front ++ back) = p.replies front ++ (front.foldl heed p).replies back := by
  induction front generalizing p with
  | nil => rfl
  | cons e front ih => exact congrArg (p.reply e :: ·) (ih (p.heed e))

theorem length_replies (p : Progress) (events : List Event) : (p.replies events).length = events.length := by
  induction events generalizing p with
  | nil => rfl
  | cons e rest ih => exact congrArg Nat.succ (ih (p.heed e))

theorem width_heed (p : Progress) (e : Event) : (p.heed e).width = p.width := by
  cases e <;> rfl

theorem width_heeds (p : Progress) (events : List Event) : (events.foldl heed p).width = p.width := by
  induction events generalizing p with
  | nil => rfl
  | cons e rest ih => exact (ih (p.heed e)).trans (width_heed p e)

theorem HasCounted.total (events : List Event) (n : Nat) : HasCounted (events ++ [.total n]) n 0 :=
  ⟨[], rfl, .inr (List.suffix_append _ _)⟩

theorem HasCounted.done {events : List Event} {total complete : Nat} (h : HasCounted events total complete)
    (name : String) : HasCounted (events ++ [.done name]) total (complete + 1) := by
  obtain ⟨names, rfl, ⟨rfl, rfl⟩ | told⟩ := h
  · exact ⟨names ++ [name], List.length_append, .inl ⟨by rw [List.map_append, List.map_singleton], rfl⟩⟩
  · refine ⟨names ++ [name], List.length_append, .inr ?_⟩
    rw [List.map_append, List.map_singleton, ← List.cons_append]
    exact List.suffix_concat_iff.mpr (.inr ⟨_, rfl, told⟩)

theorem hasCounted (width : Nat) (events : List Event) :
    HasCounted events (events.foldl heed { width }).total (events.foldl heed { width }).complete := by
  induction events using List.reverseRecOn with
  | nil => exact ⟨[], rfl, .inl ⟨rfl, rfl⟩⟩
  | append_singleton events e ih =>
      rw [List.foldl_append, List.foldl_cons, List.foldl_nil]
      cases e with
      | total n => exact .total events n
      | done name => exact ih.done name

/-! What a line shows. -/

/-- A name fills the room together with blanks behind it, or the longest of its ends that leaves room for an ellipsis in
front does. -/
inductive Fills (room : Nat) (name : List Char) : List Char → Prop
  | whole {padding : Nat} : name.length + padding = room → Fills room name (name ++ List.replicate padding ' ')
  | cut {shown : List Char} : room < name.length → shown <:+ name → 3 + shown.length = room →
      (∀ other, other <:+ name → 3 + other.length ≤ room → other <:+ shown) → Fills room name ("...".toList ++ shown)

theorem Fills.length {room : Nat} {name shown : List Char} (h : Fills room name shown) : shown.length = room := by
  cases h with
  | whole sum => rw [List.length_append, List.length_replicate, sum]
  | cut _ _ sum _ => exact List.length_append.trans sum

/-- No difference that a line is made from is below zero. -/
structure InRange (p : Progress) (name : String) : Prop where
  room : lineBeginning.length + p.counter.length ≤ p.width
  ellipsis : 3 ≤ p.room
  dropped : p.room < name.length → p.room - 3 ≤ name.length
  blanks : (endOfName p.room name.toList).length ≤ p.room

/-- The line for a name. -/
structure IsFitted (p : Progress) (name line : String) : Prop where
  /-- The number of files that are done is as wide as the total, with blanks in front. -/
  counter : p.counter = " " ++ String.ofList ((toString p.complete).toList.leftpad (toString p.total).length ' ') ++
    " / " ++ toString p.total
  /-- With enough room, a name is shown, and the line is as wide as the terminal. -/
  shown : lineBeginning.length + p.counter.length + leastRoom ≤ p.width → InRange p name ∧ line.length = p.width ∧
    ∃ room shown, lineBeginning.length + room + p.counter.length = p.width ∧ Fills room name.toList shown ∧
      line = lineBeginning ++ String.ofList shown ++ p.counter
  hidden : p.width < lineBeginning.length + p.counter.length + leastRoom →
    line = lineBeginning ++ " ... " ++ p.counter

theorem counter_eq (p : Progress) : p.counter =
    " " ++ String.ofList ((toString p.complete).toList.leftpad (toString p.total).length ' ') ++ " / " ++
      toString p.total := by
  rw [counter, List.leftpad, String.ofList_append, String.ofList_toList, String.length_toList, blanks]
  simp only [String.append_assoc]

theorem fills_endOfName {room : Nat} (enough : 3 ≤ room) (name : List Char) :
    Fills room name (endOfName room name ++ List.replicate (room - (endOfName room name).length) ' ') := by
  rw [endOfName]
  split
  · next fits => exact .whole (Nat.add_sub_of_le fits)
  · next long =>
      have dropped : (name.drop (name.length - (room - 3))).length = room - 3 := by
        rw [List.length_drop]
        omega
      have full : room - ("...".toList ++ name.drop (name.length - (room - 3))).length = 0 := by
        rw [List.length_append, dropped, show "...".toList.length = 3 from rfl]
        omega
      rw [full, List.replicate_zero, List.append_nil]
      refine .cut (Nat.lt_of_not_le long) (List.drop_suffix _ _) (by omega) ?_
      intro other suffix fits
      refine List.suffix_of_suffix_length_le suffix (List.drop_suffix _ _) ?_
      rw [dropped]
      omega

theorem inRange_of_room {p : Progress} (enough : leastRoom ≤ p.room) (name : String) : InRange p name := by
  have room : p.room = p.width - (lineBeginning.length + p.counter.length) := rfl
  have least : leastRoom = 26 := rfl
  refine ⟨by omega, by omega, by omega, ?_⟩
  have filled := (fills_endOfName (show 3 ≤ p.room by omega) name.toList).length
  rw [List.length_append] at filled
  omega

theorem isFitted_line (p : Progress) (name : String) : IsFitted p name (p.line name) := by
  have room : p.room = p.width - (lineBeginning.length + p.counter.length) := rfl
  have least : leastRoom = 26 := rfl
  refine ⟨p.counter_eq, ?_, ?_⟩
  · intro enough
    have fills := fills_endOfName (show 3 ≤ p.room by omega) name.toList
    have line_ : p.line name = lineBeginning ++ String.ofList (endOfName p.room name.toList ++
        List.replicate (p.room - (endOfName p.room name.toList).length) ' ') ++ p.counter := by
      rw [line, if_neg (by omega), String.ofList_append, ← Report.blanks]
      simp only [String.append_assoc]
    refine ⟨inRange_of_room (by omega) name, ?_, p.room, _, by omega, fills, line_⟩
    rw [line_, String.length_append, String.length_append, String.length_ofList, fills.length]
    omega
  · intro narrow
    rw [line, if_pos (by omega)]

/-- Whatever was reported before, what is written when a file is done is a line that fits, for the total that was reported
last and the files that were done since, and the line stays if and only if the total is reached. -/
theorem replies_fitted (width : Nat) (before later : List Event) (name : String) : ∃ p line lineEnd,
    (replies { width } (before ++ .done name :: later))[before.length]? = some (line ++ lineEnd) ∧ p.width = width ∧
      HasCounted (before ++ [.done name]) p.total p.complete ∧ IsFitted p name line ∧
        lineEnd = if p.complete < p.total then "\x0d" else "\n" := by
  refine ⟨(before.foldl heed { width }).advance, (before.foldl heed { width }).advance.line name,
    (before.foldl heed { width }).advance.lineEnd, ?_, width_heeds { width } before,
    (hasCounted width before).done name, isFitted_line _ name, ?_⟩
  · rw [replies_append, List.getElem?_append_right (Nat.le_of_eq (length_replies _ _)), length_replies, Nat.sub_self]
    rfl
  · rw [lineEnd]
    split
    · next reached => rw [if_neg (Nat.not_lt.mpr reached)]
    · next short => rw [if_pos (Nat.lt_of_not_le short)]

end StyleAudit.Report.Progress
