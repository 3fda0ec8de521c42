import StyleAudit.Audit.Sheet
import StyleAudit.Proofs.ModeledSelectors
import StyleAudit.Proofs.RepairRounds
/-!
The course of an inspection: how often a selector is repaired, and what comes of it. A selector is repaired as long as
it is rejected; the inspection ends in one of four ways, and keeps all that was recorded on the way.
-/
namespace StyleAudit

open Selector

/-- A selector after that many repairs. -/
def mendedTimes : Nat → List Char → List Char
  | 0, text => text
  | k + 1, text => (repair (mendedTimes k text)).text

theorem mendedTimes_succ (k : Nat) (text : List Char) : mendedTimes (k + 1) text = mendedTimes k (repair text).text := by
  induction k with
  | zero => rfl
  | succ k ih => exact congrArg (fun t => (repair t).text) ih

/-- What that many repairs of a selector on the line record. -/
def recordedRepairs (line passes : Nat) (text : List Char) : List Repair :=
  (List.range passes).flatMap fun k => (roundFindings line (repair (mendedTimes k text))).repairs

theorem recordedRepairs_succ (line passes : Nat) (text : List Char) :
    recordedRepairs line (passes + 1) text =
      (roundFindings line (repair text)).repairs ++ recordedRepairs line passes (repair text).text := by
  rw [recordedRepairs, List.range_succ_eq_map, List.flatMap_cons, List.flatMap_map, recordedRepairs]
  simp only [mendedTimes_succ]
  rfl

/-- There is something to read, but it is no selector list. -/
def IsRejected (text : List Char) (rejection : Rejection) : Prop := text ≠ [] ∧ selectors 0 text = .error rejection

/-- What comes of a selector. -/
inductive Ending where
  /-- Repairs have left nothing of it. -/
  | emptied
  | read (uses : List Use)
  | givenUp (failure : Failure)
  /-- It is read, but holds something that chains have no place for. -/
  | unmodeled (construct : Unmodeled)

/-- What is known after an inspection with that ending, if `found` was known before it. -/
def Ending.inspection (line : Nat) (found : Findings) (repairs : List Repair) : Ending → Inspection
  | .emptied => ⟨⟨found.repairs ++ repairs, found.failures, found.uses⟩, none⟩
  | .read uses => ⟨⟨found.repairs ++ repairs, found.failures, found.uses ++ uses.map (line, ·)⟩, none⟩
  | .givenUp failure => ⟨⟨found.repairs ++ repairs, found.failures ++ [(line, failure)], found.uses⟩, none⟩
  | .unmodeled construct => ⟨⟨found.repairs ++ repairs, found.failures, found.uses⟩, some construct⟩

/-- What the reason for giving up begins with at the limit of repairs. -/
def limitNote : String := "repair limit of " ++ toString repairLimit ++ " rounds reached: "

/-- The endings that are due after some repairs of a text. -/
inductive EndsWith (v : Vocabulary) (written : String) (limit : Nat) (text : List Char) (passes : Nat) : Ending → Prop
  | emptied : mendedTimes passes text = [] → EndsWith v written limit text passes .emptied
  | read {list : List Selector.Complex} {cs : List Chain} : selectors 0 (mendedTimes passes text) = .ok list →
      (∀ c ∈ list, c.IsModeled) → chains list = .ok cs →
      EndsWith v written limit text passes (.read ((cs.flatMap Chain.parts).filterMap (partUse? v)))
  | unmodeled {list : List Selector.Complex} {construct : Unmodeled} :
      selectors 0 (mendedTimes passes text) = .ok list → (∃ c ∈ list, ¬ c.IsModeled) → chains list = .error construct →
      EndsWith v written limit text passes (.unmodeled construct)
  | stuck {k : Nat} {rejection : Rejection} : passes = k + 1 → (repair (mendedTimes k text)).count = 0 →
      IsRejected (mendedTimes passes text) rejection →
      EndsWith v written limit text passes
        (.givenUp ⟨written, String.ofList (mendedTimes passes text), rejection.text⟩)
  | limited {rejection : Rejection} : passes = limit → (∀ k < passes, (repair (mendedTimes k text)).count ≠ 0) →
      IsRejected (mendedTimes passes text) rejection →
      EndsWith v written limit text passes
        (.givenUp ⟨written, String.ofList (mendedTimes passes text), limitNote ++ rejection.text⟩)

/-- The course of an inspection with at most `limit` repairs: every text on the way was rejected, every repair but the
last one changed something, and the ending is due. -/
structure Course (v : Vocabulary) (written : String) (limit : Nat) (text : List Char) (passes : Nat)
    (ending : Ending) : Prop where
  bounded : passes ≤ limit
  rejected : ∀ k < passes, ∃ rejection, IsRejected (mendedTimes k text) rejection
  productive : ∀ k, k + 1 < passes → (repair (mendedTimes k text)).count ≠ 0
  ends : EndsWith v written limit text passes ending

section
variable {v : Vocabulary} {line : Nat} {written : String} {limit passes : Nat} {text : List Char} {ending : Ending}

/-! There is a course. -/

/-- Without a repair there is only what the text itself comes to. -/
theorem EndsWith.course (h : ∀ limit, EndsWith v written limit text 0 ending) (limit : Nat) :
    Course v written limit text 0 ending := by
  refine ⟨Nat.zero_le _, ?_, ?_, h limit⟩
  · intro k lt
    exact absurd lt (Nat.not_lt_zero k)
  · intro k lt
    exact absurd lt (Nat.not_lt_zero _)

/-- One more repair in front. -/
theorem Course.again {rejection : Rejection} (h : Course v written limit (repair text).text passes ending)
    (rejected : IsRejected text rejection) (some : (repair text).count ≠ 0) :
    Course v written (limit + 1) text (passes + 1) ending := by
  have productive : ∀ k, (∀ j, k = j + 1 → (repair (mendedTimes j (repair text).text)).count ≠ 0) →
      (repair (mendedTimes k text)).count ≠ 0 := by
    intro k later
    cases k with
    | zero => exact some
    | succ k => rw [mendedTimes_succ]; exact later k rfl
  refine ⟨Nat.succ_le_succ h.bounded, ?_, ?_, ?_⟩
  · intro k lt
    cases k with
    | zero => exact ⟨rejection, rejected⟩
    | succ k => rw [mendedTimes_succ]; exact h.rejected k (Nat.lt_of_succ_lt_succ lt)
  · intro k lt
    refine productive k ?_
    rintro j rfl
    exact h.productive j (Nat.lt_of_succ_lt_succ lt)
  · cases h.ends with
    | emptied none => exact .emptied ((mendedTimes_succ passes text).trans none)
    | read accepted modeled found =>
        rw [← mendedTimes_succ] at accepted
        exact .read accepted modeled found
    | unmodeled accepted other found =>
        rw [← mendedTimes_succ] at accepted
        exact .unmodeled accepted other found
    | stuck last none rejected =>
        rw [← mendedTimes_succ] at none rejected ⊢
        exact .stuck (congrArg Nat.succ last) none rejected
    | limited full all rejected =>
        rw [← mendedTimes_succ] at rejected ⊢
        refine .limited (congrArg Nat.succ full) ?_ rejected
        intro k lt
        refine productive k ?_
        rintro j rfl
        exact all j (Nat.lt_of_succ_lt_succ lt)

theorem selectorUses_ok {list : List Selector.Complex} {cs : List Chain} (found : chains list = .ok cs) :
    selectorUses v list = .ok ((cs.flatMap Chain.parts).filterMap (partUse? v)) := by
  rw [selectorUses, found, List.filterMap_flatMap]
  rfl

theorem selectorUses_error {list : List Selector.Complex} {construct : Unmodeled}
    (found : chains list = .error construct) : selectorUses v list = .error construct := by
  rw [selectorUses, found]
  rfl

/-- A text that is read, or that is empty, is not repaired. -/
theorem inspectFrom_unrejected (h : ∀ rejection, ¬ IsRejected text rejection) :
    ∃ ending, (∀ limit, EndsWith v written limit text 0 ending) ∧
      ∀ rounds found, (inspectFrom v line written rounds text).after found = ending.inspection line found [] := by
  by_cases none : text = []
  · refine ⟨.emptied, fun _ => .emptied none, ?_⟩
    intro rounds found
    rw [inspectFrom.eq_def, if_pos none]
    simp [Inspection.after, Ending.inspection]
  · cases read : selectors 0 text with
    | error rejection => exact absurd ⟨none, read⟩ (h rejection)
    | ok list =>
        by_cases modeled : ∀ c ∈ list, c.IsModeled
        · obtain ⟨cs, found⟩ := chains_areOk_iff.mpr modeled
          refine ⟨_, fun _ => .read read modeled found, ?_⟩
          intro rounds before
          rw [inspectFrom.eq_def, if_neg none, read]
          dsimp only
          rw [selectorUses_ok found]
          simp [Inspection.after, Ending.inspection, Findings.ext_iff, Findings.ofUses]
        · obtain ⟨construct, found⟩ : ∃ construct, chains list = .error construct := by
            cases found : chains list with
            | error construct => exact ⟨construct, rfl⟩
            | ok cs => exact absurd (chains_areOk_iff.mp ⟨cs, found⟩) modeled
          refine ⟨_, fun _ => .unmodeled read (by simpa using modeled) found, ?_⟩
          intro rounds before
          rw [inspectFrom.eq_def, if_neg none, read]
          dsimp only
          rw [selectorUses_error found]
          simp [Inspection.after, Ending.inspection]

/-! A rejected text, round by round. -/

theorem after_after (i : Inspection) (found more : Findings) : (i.after more).after found = i.after (found ++ more) := by
  rw [Inspection.after, Inspection.after, Inspection.after, Findings.append_assoc]

theorem inspectFrom_limited {rejection : Rejection} (h : IsRejected text rejection) :
    inspectFrom v line written 0 text = giveUp line written text (limitNote ++ rejection.text) := by
  rw [inspectFrom.eq_def, if_neg h.1, h.2]
  rfl

theorem inspectFrom_stuck {rejection : Rejection} (h : IsRejected text rejection) (none : (repair text).count = 0)
    (rounds : Nat) : inspectFrom v line written (rounds + 1) text = giveUp line written text rejection.text := by
  rw [inspectFrom.eq_def, if_neg h.1, h.2]
  dsimp only
  rw [if_pos none]

theorem inspectFrom_again {rejection : Rejection} (h : IsRejected text rejection) (some : (repair text).count ≠ 0)
    (rounds : Nat) : inspectFrom v line written (rounds + 1) text =
      (inspectFrom v line written rounds (repair text).text).after (roundFindings line (repair text)) := by
  rw [inspectFrom.eq_def, if_neg h.1, h.2]
  dsimp only
  rw [if_neg some]

theorem giveUp_after (left : List Char) (reason : String) (found : Findings) :
    (giveUp line written left reason).after found =
      (Ending.givenUp ⟨written, String.ofList left, reason⟩).inspection line found [] := by
  simp [giveUp, Inspection.after, Ending.inspection, Findings.ext_iff, Findings.failure]

/-- Repairs that were already known count as repairs on the way. -/
theorem inspection_round (found : Findings) (r : Repairing) (repairs : List Repair) (ending : Ending) :
    ending.inspection line (found ++ roundFindings line r) repairs =
      ending.inspection line found ((roundFindings line r).repairs ++ repairs) := by
  cases ending <;> simp [Ending.inspection, roundFindings, List.append_assoc]

theorem exists_course (v : Vocabulary) (line : Nat) (written : String) (rounds : Nat)
    (trimmed : Text.trim text = text) :
    ∃ passes ending, Course v written rounds text passes ending ∧ ∀ found,
      (inspectFrom v line written rounds text).after found =
        ending.inspection line found (recordedRepairs line passes text) := by
  -- on the rounds that are left; a productive repair is put in front of the course of what it leaves
  induction rounds generalizing text with
  | zero =>
      by_cases unrejected : ∀ rejection, ¬ IsRejected text rejection
      · obtain ⟨ending, ends, same⟩ := inspectFrom_unrejected unrejected
        exact ⟨0, ending, EndsWith.course ends 0, same 0⟩
      · simp only [not_forall, not_not] at unrejected
        obtain ⟨rejection, rejected⟩ := unrejected
        refine ⟨0, _, ⟨Nat.le_refl 0, ?_, ?_, .limited rfl ?_ rejected⟩, ?_⟩
        · intro k lt
          exact absurd lt (Nat.not_lt_zero k)
        · intro k lt
          exact absurd lt (Nat.not_lt_zero _)
        · intro k lt
          exact absurd lt (Nat.not_lt_zero k)
        · intro found
          rw [inspectFrom_limited rejected, giveUp_after]
          rfl
  | succ rounds ih =>
      by_cases unrejected : ∀ rejection, ¬ IsRejected text rejection
      · obtain ⟨ending, ends, same⟩ := inspectFrom_unrejected unrejected
        exact ⟨0, ending, EndsWith.course ends (rounds + 1), same (rounds + 1)⟩
      · simp only [not_forall, not_not] at unrejected
        obtain ⟨rejection, rejected⟩ := unrejected
        by_cases none : (repair text).count = 0
        · have idle := repair_of_count none
          have left : mendedTimes 1 text = text := by
            rw [mendedTimes, mendedTimes, idle]
            exact trimmed
          have nothing : recordedRepairs line 1 text = [] := by
            rw [recordedRepairs_succ, idle]
            rfl
          rw [← left] at rejected
          refine ⟨1, _, ⟨Nat.succ_le_succ (Nat.zero_le _), ?_, ?_, .stuck rfl none rejected⟩, ?_⟩
          · intro k lt
            obtain rfl : k = 0 := by omega
            exact ⟨rejection, left ▸ rejected⟩
          · intro k lt
            omega
          · intro found
            rw [left] at rejected ⊢
            rw [inspectFrom_stuck rejected none, giveUp_after, nothing]
        · obtain ⟨passes, ending, course, same⟩ := ih (trim_repair text)
          refine ⟨passes + 1, ending, course.again rejected none, ?_⟩
          intro found
          rw [inspectFrom_again rejected none, after_after, same, inspection_round, recordedRepairs_succ]

/-! There is no other. -/

theorem IsRejected.not_accepted {rejection : Rejection} {list : List Selector.Complex} (h : IsRejected text rejection)
    (accepted : selectors 0 text = .ok list) : False := by
  rw [h.2] at accepted
  cases accepted

theorem not_accepted_nil {list : List Selector.Complex} (none : text = []) (accepted : selectors 0 text = .ok list) :
    False := by
  rw [none, selectors_nil] at accepted
  cases accepted

/-- Where an ending is due, a course does not go on. -/
theorem Course.not_lt {passes' : Nat} {ending' : Ending} (h : Course v written limit text passes ending)
    (h' : Course v written limit text passes' ending') : ¬ passes < passes' := by
  intro lt
  obtain ⟨rejection, rejected⟩ := h'.rejected passes lt
  cases h.ends with
  | emptied none => exact rejected.1 none
  | read accepted _ _ => exact rejected.not_accepted accepted
  | unmodeled accepted _ _ => exact rejected.not_accepted accepted
  | @stuck k _ last none _ => exact h'.productive k (last ▸ lt) none
  | limited full _ _ => exact absurd h'.bounded (Nat.not_le.mpr (full ▸ lt))

/-- The ending of a selector list that is read. -/
def Ending.ofChains (v : Vocabulary) : Except Unmodeled (List Chain) → Ending
  | .ok cs => .read ((cs.flatMap Chain.parts).filterMap (partUse? v))
  | .error construct => .unmodeled construct

theorem EndsWith.of_accepted {list : List Selector.Complex} (h : EndsWith v written limit text passes ending)
    (accepted : selectors 0 (mendedTimes passes text) = .ok list) : ending = .ofChains v (chains list) := by
  cases h with
  | emptied none => exact (not_accepted_nil none accepted).elim
  | read accepted' _ found =>
      obtain rfl := Except.ok.inj (accepted.symm.trans accepted')
      rw [found]
      rfl
  | unmodeled accepted' _ found =>
      obtain rfl := Except.ok.inj (accepted.symm.trans accepted')
      rw [found]
      rfl
  | stuck _ _ rejected => exact (rejected.not_accepted accepted).elim
  | limited _ _ rejected => exact (rejected.not_accepted accepted).elim

theorem EndsWith.unique {ending' : Ending} (h : EndsWith v written limit text passes ending)
    (h' : EndsWith v written limit text passes ending') : ending' = ending := by
  cases h with
  | emptied none =>
      cases h' with
      | emptied _ => rfl
      | read accepted _ _ => exact (not_accepted_nil none accepted).elim
      | unmodeled accepted _ _ => exact (not_accepted_nil none accepted).elim
      | stuck _ _ rejected => exact absurd none rejected.1
      | limited _ _ rejected => exact absurd none rejected.1
  | read accepted _ found =>
      rw [h'.of_accepted accepted, found]
      rfl
  | unmodeled accepted _ found =>
      rw [h'.of_accepted accepted, found]
      rfl
  | stuck last none rejected =>
      cases h' with
      | emptied none => exact absurd none rejected.1
      | read accepted _ _ => exact (rejected.not_accepted accepted).elim
      | unmodeled accepted _ _ => exact (rejected.not_accepted accepted).elim
      | stuck _ _ rejected' =>
          obtain rfl := Except.error.inj (rejected.2.symm.trans rejected'.2)
          rfl
      | limited _ all _ => exact absurd none (all _ (by omega))
  | limited full all rejected =>
      cases h' with
      | emptied none => exact absurd none rejected.1
      | read accepted _ _ => exact (rejected.not_accepted accepted).elim
      | unmodeled accepted _ _ => exact (rejected.not_accepted accepted).elim
      | stuck _ none _ => exact absurd none (all _ (by omega))
      | limited _ _ rejected' =>
          obtain rfl := Except.error.inj (rejected.2.symm.trans rejected'.2)
          rfl

theorem Course.unique {passes' : Nat} {ending' : Ending} (h : Course v written limit text passes ending)
    (h' : Course v written limit text passes' ending') : passes' = passes ∧ ending' = ending := by
  obtain rfl : passes' = passes := Nat.le_antisymm (Nat.not_lt.mp (h.not_lt h')) (Nat.not_lt.mp (h'.not_lt h))
  exact ⟨rfl, h.ends.unique h'.ends⟩

end

/-! The reason for giving up. -/

theorem head?_append_text {s : String} {c : Char} (h : s.toList.head? = some c) (t : String) :
    (s ++ t).toList.head? = some c := by
  rw [String.toList_append, List.head?_append, h]
  rfl

theorem message_head (fault : Fault) : ∃ c, fault.message.toList.head? = some c ∧ c ≠ 'r' := by
  cases fault with
  | unexpected c =>
      rw [Fault.message.eq_def]
      dsimp only
      split
      · exact ⟨'i', head?_append_text rfl _, by decide⟩
      · exact ⟨'u', head?_append_text (head?_append_text rfl _) _, by decide⟩
  | noName _ => exact ⟨'e', head?_append_text rfl _, by decide⟩
  | twoColons _ | oneColon _ => exact ⟨'p', head?_append_text (head?_append_text rfl _) _, by decide⟩
  | unknownPseudoElement _ | unknownPseudoClass _ | unknownFunction _ =>
      exact ⟨'u', head?_append_text (head?_append_text rfl _) _, by decide⟩
  | malformedPosition _ => exact ⟨'p', head?_append_text (head?_append_text rfl _) _, by decide⟩
  | _ => exact ⟨_, rfl, by decide⟩

/-- No rejection reads like the limit of repairs. -/
theorem not_limitNote (r : Rejection) : ¬ limitNote.toList <+: r.text.toList := by
  rintro ⟨behind, same⟩
  obtain ⟨c, first, other⟩ := message_head r.fault
  have head := congrArg List.head? same
  rw [Rejection.text, Rejection.message, head?_append_text (head?_append_text first _), List.head?_append] at head
  exact other (Option.some.inj head).symm

theorem limitNote_isPrefix (text : String) : limitNote.toList <+: (limitNote ++ text).toList := by
  rw [String.toList_append]
  exact List.prefix_append _ _

/-- The limit of repairs is the reason just where each repair up to the limit has changed something. -/
theorem EndsWith.limitNote_iff {v : Vocabulary} {written : String} {limit passes : Nat} {text : List Char}
    {failure : Failure} (h : EndsWith v written limit text passes (.givenUp failure)) :
    limitNote.toList <+: failure.reason.toList ↔
      passes = limit ∧ ∀ k < passes, (repair (mendedTimes k text)).count ≠ 0 := by
  cases h with
  | @stuck k rejection last none _ =>
      constructor
      · intro note
        exact absurd note (not_limitNote rejection)
      · rintro ⟨-, all⟩
        exact absurd none (all k (by omega))
  | limited full all _ => exact ⟨fun _ => ⟨full, all⟩, fun _ => limitNote_isPrefix _⟩

/-- Accounting of an inspection. A selector is repaired at most ten times, as long as it is rejected, and then one ending
is due and no other. What was known before is kept. The repairs on the way are added to it in their order; a failure is
added if the selector is given up, and uses if it is read. -/
theorem inspect_course (v : Vocabulary) (line : Nat) (found : Findings) (selector : String) :
    ∃ passes ending, Course v selector repairLimit (Text.trim selector.toList) passes ending ∧
      (∀ passes' ending', Course v selector repairLimit (Text.trim selector.toList) passes' ending' →
        passes' = passes ∧ ending' = ending) ∧
      (inspect v line selector).after found =
        ending.inspection line found (recordedRepairs line passes (Text.trim selector.toList)) ∧
      (∀ failure, ending = .givenUp failure → (limitNote.toList <+: failure.reason.toList ↔
        passes = repairLimit ∧ ∀ k < passes, (repair (mendedTimes k (Text.trim selector.toList))).count ≠ 0)) ∧
      ∀ construct, ending = .unmodeled construct → ∀ path scope rest,
        Note.findings v path (.selector scope line selector :: rest) = .error (.unmodeled path line construct) := by
  obtain ⟨passes, ending, course, same⟩ :=
    exists_course v line selector repairLimit (Text.trim_trim selector.toList)
  refine ⟨passes, ending, course, fun _ _ other => course.unique other, same found, ?_, ?_⟩
  · rintro failure rfl
    exact course.ends.limitNote_iff
  · rintro construct rfl path scope rest
    have stopped : (inspect v line selector).stopped = some construct := congrArg Inspection.stopped (same {})
    rw [Note.findings]
    generalize inspect v line selector = inspection at stopped ⊢
    obtain ⟨findings, stop⟩ := inspection
    obtain rfl : stop = some construct := stopped
    rfl

/-- Nine repairs take a colon each, and the tenth finds nothing: ten repairs are made, but the limit is not the reason
for giving up. -/
theorem inspect_course_idle :
    Course ⟨[], [], []⟩ "::::::::::any" repairLimit (Text.trim "::::::::::any".toList) repairLimit
        (.givenUp ⟨"::::::::::any", ":any", "unknown pseudo-class ':any' at position 4"⟩) ∧
      (inspect ⟨[], [], []⟩ 1 "::::::::::any").findings.failures =
        [(1, ⟨"::::::::::any", ":any", "unknown pseudo-class ':any' at position 4"⟩)] ∧
      ¬ limitNote.toList <+: "unknown pseudo-class ':any' at position 4".toList := by
  have trimmed : Text.trim "::::::::::any".toList = "::::::::::any".toList := by decide
  have stripped : ∀ n < 9, (repair (List.replicate (n + 2) ':' ++ "any".toList)).text =
      List.replicate (n + 1) ':' ++ "any".toList ∧ (repair (List.replicate (n + 2) ':' ++ "any".toList)).count ≠ 0 := by
    decide +kernel
  have idle : (repair ":any".toList).text = ":any".toList ∧ (repair ":any".toList).count = 0 := by decide +kernel
  have texts : ∀ k < 10, mendedTimes k "::::::::::any".toList = List.replicate (10 - k) ':' ++ "any".toList := by
    intro k lt
    induction k with
    | zero => decide
    | succ k ih =>
        have shorter := (stripped (8 - k) (by omega)).1
        rw [show 8 - k + 2 = 10 - k by omega, show 8 - k + 1 = 10 - (k + 1) by omega] at shorter
        rw [mendedTimes, ih (Nat.lt_of_succ_lt lt), shorter]
  have single : mendedTimes 9 "::::::::::any".toList = ":any".toList := texts 9 (by omega)
  have last : mendedTimes 10 "::::::::::any".toList = ":any".toList := by rw [mendedTimes, single, idle.1]
  have counts : ∀ k < 9, (repair (mendedTimes k "::::::::::any".toList)).count ≠ 0 := by
    intro k lt
    rw [texts k (by omega), show 10 - k = 8 - k + 2 by omega]
    exact (stripped (8 - k) (by omega)).2
  have none : (repair (mendedTimes 9 "::::::::::any".toList)).count = 0 := by rw [single, idle.2]
  have unread : ∀ k < 10, (selectors 0 (List.replicate (10 - k) ':' ++ "any".toList)).isOk = false := by
    intro k lt
    interval_cases k <;> cbv
  have left : selectors 0 ":any".toList = .error ⟨.unknownPseudoClass "any", 4⟩ := by cbv
  have course : Course ⟨[], [], []⟩ "::::::::::any" repairLimit "::::::::::any".toList repairLimit
      (.givenUp ⟨"::::::::::any", ":any", "unknown pseudo-class ':any' at position 4"⟩) := by
    refine ⟨Nat.le_refl _, ?_, fun k lt => counts k (Nat.lt_of_succ_lt_succ lt), ?_⟩
    · intro k lt
      have error := unread k lt
      simp only [IsRejected, texts k lt]
      cases read : selectors 0 (List.replicate (10 - k) ':' ++ "any".toList) with
      | error rejection => exact ⟨rejection, by simp, rfl⟩
      | ok list => rw [read] at error; cases error
    · have rejected : IsRejected (mendedTimes 10 "::::::::::any".toList) ⟨.unknownPseudoClass "any", 4⟩ := by
        rw [last]
        exact ⟨by decide, left⟩
      have stuck : EndsWith ⟨[], [], []⟩ "::::::::::any" repairLimit "::::::::::any".toList 10 _ :=
        .stuck rfl none rejected
      rw [last] at stuck
      exact stuck
  rw [trimmed]
  refine ⟨course, ?_, ?_⟩
  · obtain ⟨passes, ending, course', same⟩ := exists_course ⟨[], [], []⟩ 1 "::::::::::any" repairLimit trimmed
    obtain ⟨rfl, rfl⟩ := course.unique course'
    rw [inspect, trimmed]
    exact congrArg (fun i => i.findings.failures) (same {})
  · exact not_limitNote ⟨.unknownPseudoClass "any", 4⟩

end StyleAudit
