import Mathlib.Data.List.Induction
import StyleAudit.Report.Remarks
/-!
Remarks over time. A remark is suppressed if one under the same text was made since all were last forgotten. Two remarks
have the same text if they are the same, or if the component of one runs over into the message of the other.
-/
namespace StyleAudit.Report.Remarks

/-! Requests one after the other. -/

/-- What may be requested: that a remark be made, or that all be forgotten. -/
inductive Request where
  | remark (component message : String)
  | forget
  deriving DecidableEq, Repr

/-- The remarks made after a request. -/
def serve (r : Remarks) : Request → Remarks
  | .remark component message => (r.remark component message).2
  | .forget => r.forget

/-- Whether the remark that is requested is to be made. -/
def answer (r : Remarks) : Request → Option Bool
  | .remark component message => some (r.remark component message).1
  | .forget => none

def answers (r : Remarks) : List Request → List (Option Bool)
  | [] => []
  | q :: rest => r.answer q :: (r.serve q).answers rest

/-- The remark was requested, and nothing has been forgotten since. -/
def IsPending (requests : List Request) (component message : String) : Prop :=
  ∃ since, (.remark component message :: since) <:+ requests ∧ .forget ∉ since

theorem answers_append (r : Remarks) (front back : List Request) :
    r.answers (front ++ back) = r.answers front ++ (front.foldl serve r).answers back := by
  induction front generalizing r with
  | nil => rfl
  | cons q front ih => exact congrArg (r.answer q :: ·) (ih (r.serve q))

theorem length_answers (r : Remarks) (requests : List Request) : (r.answers requests).length = requests.length := by
  induction requests generalizing r with
  | nil => rfl
  | cons q rest ih => exact congrArg Nat.succ (ih (r.serve q))

theorem answer_remark (r : Remarks) (component message : String) :
    r.answer (.remark component message) = some (decide (text component message ∉ r.made)) := by
  rw [answer, remark]
  split
  · next made => simp [made]
  · next unmade => simp [unmade]

/-- A request for a remark adds at most its own text. -/
theorem mem_made_remark (r : Remarks) (component message t : String) :
    t ∈ (r.serve (.remark component message)).made ↔ t = text component message ∨ t ∈ r.made := by
  rw [serve, remark]
  split
  · next made =>
      constructor
      · exact .inr
      · rintro (rfl | mem)
        · exact made
        · exact mem
  · exact List.mem_cons

theorem not_isPending_nil (component message : String) : ¬ IsPending [] component message := by
  rintro ⟨since, suffix, -⟩
  exact absurd (List.suffix_nil.mp suffix) (List.cons_ne_nil _ _)

theorem isPending_concat (requests : List Request) (q : Request) (component message : String) :
    IsPending (requests ++ [q]) component message ↔
      q = .remark component message ∨ q ≠ .forget ∧ IsPending requests component message := by
  constructor
  · rintro ⟨since, suffix, kept⟩
    rcases List.suffix_concat_iff.mp suffix with none | ⟨front, same, before⟩
    · cases none
    cases front with
    | nil => exact .inl (List.cons.inj same).1.symm
    | cons first front =>
        obtain ⟨rfl, rfl⟩ := List.cons.inj same
        refine .inr ⟨?_, front, before, ?_⟩
        · rintro rfl
          exact kept (List.mem_append_right _ List.mem_cons_self)
        · intro forgotten
          exact kept (List.mem_append_left _ forgotten)
  · rintro (rfl | ⟨other, since, suffix, kept⟩)
    · exact ⟨[], List.suffix_append _ _, List.not_mem_nil⟩
    · refine ⟨since ++ [q], List.suffix_concat_iff.mpr (.inr ⟨_, rfl, suffix⟩), ?_⟩
      intro forgotten
      rcases List.mem_append.mp forgotten with mem | mem
      · exact kept mem
      · exact other (List.mem_singleton.mp mem).symm

/-- The texts that were made are those of the remarks that are pending. -/
theorem mem_made_iff (requests : List Request) (t : String) :
    t ∈ (requests.foldl serve {}).made ↔ ∃ component message, IsPending requests component message ∧
      text component message = t := by
  induction requests using List.reverseRecOn with
  | nil => simp [not_isPending_nil]
  | append_singleton requests q ih =>
      rw [List.foldl_append, List.foldl_cons, List.foldl_nil]
      simp only [isPending_concat]
      cases q with
      | forget => simp [serve, forget]
      | remark component' message' =>
          rw [mem_made_remark, ih]
          constructor
          · rintro (rfl | ⟨component, message, pending, same⟩)
            · exact ⟨component', message', .inl rfl, rfl⟩
            · exact ⟨component, message, .inr ⟨nofun, pending⟩, same⟩
          · rintro ⟨component, message, last | ⟨-, pending⟩, same⟩
            · obtain ⟨rfl, rfl⟩ := Request.remark.inj last
              exact .inl same.symm
            · exact .inr ⟨component, message, pending, same⟩

/-! Remarks under one text. -/

/-- The second component goes on behind the first with what separates a component from a message, and the first message
goes on with the second one in the same way. -/
def RunsOver (component message component' message' : String) : Prop :=
  ∃ between, component' = component ++ "] " ++ between ∧ message = between ++ "] " ++ message'

theorem RunsOver.ne {component message component' message' : String}
    (h : RunsOver component message component' message') : component ≠ component' ∧ message ≠ message' := by
  have mark : "] ".length = 2 := rfl
  obtain ⟨between, rfl, rfl⟩ := h
  constructor
  · intro same
    have length := congrArg String.length same
    rw [String.length_append, String.length_append, mark] at length
    omega
  · intro same
    have length := congrArg String.length same
    rw [String.length_append, String.length_append, mark] at length
    omega

/-- Where one component goes on behind the other, it goes on with what separates it from its message. -/
theorem runsOver_of_append {more m m' : List Char} (h : ']' :: ' ' :: m = more ++ ']' :: ' ' :: m') :
    (more = [] ∧ m = m') ∨ ∃ between, more = ']' :: ' ' :: between ∧ m = between ++ ']' :: ' ' :: m' := by
  match more with
  | [] => exact .inl ⟨rfl, by simpa using h⟩
  | [d] =>
      -- a blank would have to be a bracket
      simp at h
  | d :: e :: between =>
      simp only [List.cons_append, List.cons.injEq] at h
      obtain ⟨rfl, rfl, rfl⟩ := h
      exact .inr ⟨between, rfl, rfl⟩

theorem toList_text (component message : String) :
    (text component message).toList = '[' :: (component.toList ++ ']' :: ' ' :: message.toList) := by
  simp [text]

theorem text_eq_iff (component message component' message' : String) :
    text component message = text component' message' ↔ (component = component' ∧ message = message') ∨
      RunsOver component message component' message' ∨ RunsOver component' message' component message := by
  have runsOver {c m c' m' : String} {more : List Char} (goesOn : c'.toList = c.toList ++ more)
      (h : ']' :: ' ' :: m.toList = more ++ ']' :: ' ' :: m'.toList) : (c = c' ∧ m = m') ∨ RunsOver c m c' m' := by
    rcases runsOver_of_append h with ⟨rfl, same⟩ | ⟨between, rfl, same⟩
    · rw [List.append_nil] at goesOn
      exact .inl ⟨(String.toList_inj.mp goesOn).symm, String.toList_inj.mp same⟩
    · refine .inr ⟨String.ofList between, String.toList_inj.mp ?_, String.toList_inj.mp ?_⟩
      · simpa using goesOn
      · simpa using same
  constructor
  · intro same
    rw [← String.toList_inj, toList_text, toList_text, List.cons.injEq] at same
    rcases List.append_eq_append_iff.mp same.2 with ⟨more, goesOn, behind⟩ | ⟨more, goesOn, behind⟩
    · rcases runsOver goesOn behind with same | runs
      · exact .inl same
      · exact .inr (.inl runs)
    · rcases runsOver goesOn behind with ⟨rfl, rfl⟩ | runs
      · exact .inl ⟨rfl, rfl⟩
      · exact .inr (.inr runs)
  · rintro (⟨rfl, rfl⟩ | ⟨between, rfl, rfl⟩ | ⟨between, rfl, rfl⟩)
    · rfl
    · simp only [text, String.append_assoc]
    · simp only [text, String.append_assoc]

/-- A remark is suppressed just if one is pending that is the same, or that has the same text because one of the two
components runs over. Remarks that share their component or their message do not suppress each other unless they are the
same. -/
theorem answer_suppressed (requests later : List Request) (component message : String) :
    (∃ isNew, (answers {} (requests ++ .remark component message :: later))[requests.length]? = some (some isNew) ∧
      (isNew = false ↔ ∃ component' message', IsPending requests component' message' ∧
        ((component = component' ∧ message = message') ∨ RunsOver component message component' message' ∨
          RunsOver component' message' component message))) ∧
    (∀ message', text component message = text component message' ↔ message = message') ∧
      ∀ component', text component message = text component' message ↔ component = component' := by
  refine ⟨⟨decide (text component message ∉ (requests.foldl serve {}).made), ?_, ?_⟩, ?_, ?_⟩
  · rw [answers_append, List.getElem?_append_right (Nat.le_of_eq (length_answers _ _)), length_answers, Nat.sub_self, answers,
      answer_remark]
    rfl
  · rw [decide_eq_false_iff_not, not_not, mem_made_iff]
    simp only [← text_eq_iff, @eq_comm _ (text _ _) (text component message)]
  · intro message'
    rw [text_eq_iff]
    constructor
    · rintro (same | runs | runs)
      · exact same.2
      · exact absurd rfl runs.ne.1
      · exact absurd rfl runs.ne.1
    · intro same
      exact .inl ⟨rfl, same⟩
  · intro component'
    rw [text_eq_iff]
    constructor
    · rintro (same | runs | runs)
      · exact same.1
      · exact absurd rfl runs.ne.2
      · exact absurd rfl runs.ne.2
    · intro same
      exact .inl ⟨same, rfl⟩

/-- Two remarks that share neither component nor message, the second of which was never requested and yet is suppressed. -/
theorem answers_other : answers {} [.remark "a" "] x", .remark "a] " "x"] = [some true, some false] ∧
    ¬ IsPending [.remark "a" "] x"] "a] " "x" := by
  constructor
  · decide +kernel
  · have other : Request.remark "a" "] x" ≠ .remark "a] " "x" := by decide +kernel
    have first : ([.remark "a" "] x"] : List Request) = [] ++ [.remark "a" "] x"] := rfl
    rw [first, isPending_concat]
    rintro (same | ⟨-, pending⟩)
    · exact other same
    · exact not_isPending_nil _ _ pending

end StyleAudit.Report.Remarks
