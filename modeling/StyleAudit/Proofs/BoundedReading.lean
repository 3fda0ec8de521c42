import StyleAudit.Proofs.FaultPlaces
/-!
Reading with a bound. The readers are told once more, with a number that bounds how often one may go on from within
another; where it is used up the reading is given up. A text is never given up whose length is below the bound, so
reading ends for every text, and what it ends in is what the grammar says.
-/
namespace StyleAudit.Selector

open Text (Scan)

/-- A reading that may be given up. -/
abbrev Attempt (α : Type) : Type := ExceptT Rejection Option α

namespace Attempt

variable {α β : Type}

def givenUp : Attempt α := ExceptT.mk none

/-- A reading that has ended. -/
def ended (read : Except Rejection α) : Attempt α := ExceptT.mk (some read)

theorem ended_bind {read : Except Rejection α} {f : α → Attempt β} {g : α → Except Rejection β}
    (h : ∀ a, read = .ok a → f a = ended (g a)) : (ended read >>= f) = ended (read >>= g) := by
  cases read with
  | error _ => rfl
  | ok a => exact h a rfl

theorem map_ended (f : α → β) (read : Except Rejection α) : f <$> ended read = ended (read.map f) := by
  cases read <;> rfl

end Attempt

open Attempt

/-! The readers, with the reader of simple selectors given. -/

section

variable (simples : Nat → List Char → Attempt (Scan Compound))

def compoundBy (pos : Nat) (text : List Char) : Attempt (Scan Compound) :=
  ended (typeSelector pos text) >>= fun start =>
    simples (pos + start.size) (text.drop start.size) >>= fun more =>
      ended (if start.value ++ more.value = [] then
          reject (match text with | c :: _ => if isZeroWidth c then .unexpected c else .noSelector | [] => .noSelector) pos
        else .ok ⟨start.value ++ more.value, start.size + more.size⟩)

def negatedBy (pos : Nat) (argument : List Char) : Attempt Simple :=
  if Text.trim argument = [] then ended (reject .emptyNegation pos)
  else compoundBy simples (pos + spaces argument) (Text.trim argument) >>= fun parts =>
    ended (match (Text.trim argument).drop parts.size with
      | c :: _ => reject (if separates c then .notSingle else .unexpected c) (pos + spaces argument + parts.size)
      | [] => single pos parts.value)

def pseudoBy (rest : List Char) (pos : Nat) : Attempt (Scan Simple) :=
  ended (pseudo pos rest) >>= fun read => match read.value with
    | .simple simple => ended (.ok ⟨simple, read.size⟩)
    | .negation start size =>
      (fun simple => ⟨.negation simple, read.size⟩) <$> negatedBy simples (pos + start) ((rest.drop start).take size)

def simplesBy (rest : List Char) (pos : Nat) (first : Scan Simple) : Attempt (Scan Compound) :=
  Scan.behind (1 + first.size) (first.value :: ·) <$> simples (pos + (1 + first.size)) (rest.drop first.size)

end

/-- The simple selectors that a text begins with, if no more than so many readings of simple selectors are begun from
within one another. -/
def simplesWithin : Nat → Nat → List Char → Attempt (Scan Compound)
  | 0, _, _ => givenUp
  | _ + 1, _, [] => ended (.ok ⟨[], 0⟩)
  | bound + 1, pos, c :: rest =>
    if c = ':' then pseudoBy (simplesWithin bound) rest (pos + 1) >>= simplesBy (simplesWithin bound) rest pos
    else if c = '*' then ended (reject .universalNotFirst pos)
    else if startsIdent (c :: rest) then ended (reject .elementNotFirst pos)
    else if c = '.' ∨ c = '#' ∨ c = '&' ∨ c = '[' then
      ended (marked c rest (pos + 1)) >>= simplesBy (simplesWithin bound) rest pos
    else ended (.ok ⟨[], 0⟩)

def linksWithin : Nat → Nat → List Char → Attempt (Scan (List (Combinator × Compound)))
  | 0, _, _ => givenUp
  | bound + 1, pos, text =>
    match joint (spaces text != 0) (text.drop (spaces text)) with
    | (.none, _) => ended (.ok ⟨[], spaces text⟩)
    | (.unexpected c, _) => ended (reject (.unexpected c) (pos + spaces text))
    | (.combinator sign, m) =>
      let n := spaces text + m + spaces (text.drop (spaces text + m))
      if text.drop n = [] ∨ (text.drop n).head? = some ',' then ended (reject .danglingCombinator (pos + n))
      else compoundBy (simplesWithin (bound + 1)) (pos + n) (text.drop n) >>= fun parts =>
        Scan.behind (n + parts.size) ((sign, parts.value) :: ·) <$>
          linksWithin bound (pos + (n + parts.size)) (text.drop (n + parts.size))

def complexWithin (bound pos : Nat) (text : List Char) : Attempt (Scan Complex) :=
  compoundBy (simplesWithin bound) pos text >>= fun first =>
    Scan.behind first.size (⟨first.value, ·⟩) <$> linksWithin bound (pos + first.size) (text.drop first.size)

def selectorsWithin : Nat → Nat → List Char → Attempt (List Complex)
  | 0, _, _ => givenUp
  | bound + 1, pos, text =>
    complexWithin (bound + 1) (pos + spaces text) (text.drop (spaces text)) >>= fun first =>
      match text.drop (spaces text + first.size) with
      | [] => ended (.ok [first.value])
      | _ :: rest => (first.value :: ·) <$> selectorsWithin bound (pos + (spaces text + first.size + 1)) rest

/-- The selector list that a text is, with no more readings from within one another than the bound says. -/
def parseWithin (bound : Nat) (text : String) : Option (Except Rejection (List Complex)) :=
  (selectorsWithin bound 0 text.toList).run

/-! Each reader ends where those that it goes on with do. -/

section

variable {simples' : Nat → List Char → Attempt (Scan Compound)} {text : List Char}

theorem compoundBy_eq (h : ∀ pos rest, rest.length ≤ text.length → simples' pos rest = ended (simples pos rest))
    (pos : Nat) : compoundBy simples' pos text = ended (compound pos text) := by
  rw [compound_eq, compoundBy.eq_def]
  refine ended_bind fun start _ => ?_
  rw [h _ _ (by rw [List.length_drop]; omega)]
  exact ended_bind fun more _ => rfl

theorem negatedBy_eq (h : ∀ pos rest, rest.length ≤ text.length → simples' pos rest = ended (simples pos rest))
    (pos : Nat) : negatedBy simples' pos text = ended (negated pos text) := by
  have trimmed := Text.length_trim_le text
  rw [negated_eq, negatedBy]
  split
  · rfl
  · rw [compoundBy_eq fun pos rest short => h pos rest (Nat.le_trans short trimmed)]
    exact ended_bind fun parts _ => rfl

theorem pseudoBy_eq (h : ∀ pos rest, rest.length ≤ text.length → simples' pos rest = ended (simples pos rest))
    (pos : Nat) : pseudoBy simples' text pos = ended (pseudoSimple text pos) := by
  rw [pseudoSimple, pseudoBy]
  refine ended_bind fun read _ => ?_
  cases read.value with
  | simple simple => rfl
  | negation start size =>
      have short : ((text.drop start).take size).length ≤ text.length := by
        rw [List.length_take, List.length_drop]
        omega
      dsimp only
      rw [negatedBy_eq fun pos rest inside => h pos rest (Nat.le_trans inside short), map_ended]

theorem simplesBy_eq (h : ∀ pos rest, rest.length ≤ text.length → simples' pos rest = ended (simples pos rest))
    (pos : Nat) (first : Scan Simple) : simplesBy simples' text pos first = ended (simplesBehind text pos first) := by
  rw [simplesBy, h _ _ (by rw [List.length_drop]; omega), map_ended, simplesBehind]

end

theorem simplesWithin_eq {bound : Nat} {text : List Char} (short : text.length < bound) (pos : Nat) :
    simplesWithin bound pos text = ended (simples pos text) := by
  induction bound generalizing text pos with
  | zero => exact absurd short (Nat.not_lt_zero _)
  | succ bound ih =>
      cases text with
      | nil =>
          rw [simples]
          rfl
      | cons c rest =>
          have later : ∀ pos text, text.length ≤ rest.length → simplesWithin bound pos text = ended (simples pos text) := by
            intro pos text size
            rw [List.length_cons] at short
            exact ih (by omega) pos
          have tail : ∀ {read : Except Rejection (Scan Simple)}, (ended read >>= simplesBy (simplesWithin bound) rest pos) =
              ended (read >>= simplesBehind rest pos) :=
            ended_bind fun first _ => simplesBy_eq later pos first
          rw [simples_cons, simplesWithin, pseudoBy_eq later]
          split
          · exact tail
          · split
            · rfl
            · split
              · rfl
              · split
                · exact tail
                · rfl

theorem linksWithin_eq {bound : Nat} {text : List Char} (short : text.length < bound) (pos : Nat) :
    linksWithin bound pos text = ended (links pos text) := by
  induction bound generalizing text pos with
  | zero => exact absurd short (Nat.not_lt_zero _)
  | succ bound ih =>
      rw [links_eq, linksWithin]
      rcases found : joint (spaces text != 0) (text.drop (spaces text)) with ⟨joined, m⟩
      cases joined with
      | none => rfl
      | unexpected c => rfl
      | combinator sign =>
          dsimp only
          rw [linksBehind]
          split
          · rfl
          · next some =>
              simp only [not_or] at some
              rw [compoundBy_eq fun pos rest inside => simplesWithin_eq (by rw [List.length_drop] at inside; omega) pos]
              refine ended_bind fun parts _ => ?_
              have progress := joint_progress found
              have behind := List.length_pos_iff.mpr some.1
              rw [ih, map_ended]
              simp only [List.length_drop, bne_iff_ne, ne_eq] at progress behind ⊢
              omega

theorem complexWithin_eq {bound : Nat} {text : List Char} (short : text.length < bound) (pos : Nat) :
    complexWithin bound pos text = ended (complex pos text) := by
  rw [complex_eq, complexWithin, compoundBy_eq fun pos rest inside => simplesWithin_eq (by omega) pos]
  refine ended_bind fun first _ => ?_
  rw [linksWithin_eq (by rw [List.length_drop]; omega), map_ended]

theorem selectorsWithin_eq {bound : Nat} {text : List Char} (short : text.length < bound) (pos : Nat) :
    selectorsWithin bound pos text = ended (selectors pos text) := by
  induction bound generalizing text pos with
  | zero => exact absurd short (Nat.not_lt_zero _)
  | succ bound ih =>
      rw [selectors_eq, selectorsWithin, complexWithin_eq (by rw [List.length_drop]; omega)]
      refine ended_bind fun first _ => ?_
      rw [selectorsBehind]
      cases goesOn : text.drop (spaces text + first.size) with
      | nil => rfl
      | cons c rest =>
          have behind := congrArg List.length goesOn
          rw [List.length_drop, List.length_cons] at behind
          dsimp only
          rw [ih (by omega), map_ended]

/-- Every text is read to an end, in no more readings from within one another than it has characters and one. If it is
rejected, then in the text; and where a negation is, what its argument is rejected for is in the argument. -/
theorem parse_ends_inside (text : String) :
    (∀ bound, text.length < bound → parseWithin bound text = some (parse text)) ∧
    (∀ r, parse text = .error r → r.position ≤ text.length) ∧
    ∀ pos argument r, negated pos argument = .error r → pos ≤ r.position ∧ r.position ≤ pos + argument.length := by
  refine ⟨fun bound short => ?_, fun r rejected => ?_, fun pos argument => negated_pointsInto pos argument⟩
  · rw [parseWithin, selectorsWithin_eq (by rwa [String.length_toList])]
    rfl
  · have inside := (selectors_pointsInto 0 text.toList r rejected).2
    rwa [Nat.zero_add, String.length_toList] at inside

/-- Three negations inside one another, the second behind a blank that is not counted for its place. -/
theorem parse_ends_inside_nested :
    ":not(\u00a0:not( :not(a b) ))".length < 25 ∧
      parse ":not(\u00a0:not( :not(a b) ))" = .error ⟨.notSingle, 17⟩ ∧
      parseWithin 25 ":not(\u00a0:not( :not(a b) ))" = some (.error ⟨.notSingle, 17⟩) ∧
      17 ≤ ":not(\u00a0:not( :not(a b) ))".length ∧
      negated 5 "\u00a0:not( :not(a b) )".toList = .error ⟨.notSingle, 17⟩ ∧
      5 ≤ 17 ∧ 17 ≤ 5 + "\u00a0:not( :not(a b) )".toList.length := by
  have rejected : parse ":not(\u00a0:not( :not(a b) ))" = .error ⟨.notSingle, 17⟩ := by cbv
  have inside : negated 5 "\u00a0:not( :not(a b) )".toList = .error ⟨.notSingle, 17⟩ := by cbv
  obtain ⟨ends, bound, within⟩ := parse_ends_inside ":not(\u00a0:not( :not(a b) ))"
  have ended := ends 25 (by decide)
  rw [rejected] at ended
  exact ⟨by decide, rejected, ended, bound _ rejected, inside, within _ _ _ inside⟩

end StyleAudit.Selector
