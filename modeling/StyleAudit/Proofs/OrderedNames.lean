import StyleAudit.Audit.Survey
import StyleAudit.Proofs.PositionNotation
/-!
The natural order of names is a total preorder: each part of a name has a key, and names are compared by the lists of
their keys. Runs of digits compare as numerals do, by their lengths and then digit by digit once their leading zeros are
left aside, and so by the numbers they denote.
-/
namespace StyleAudit.Text

open Selector (IsDigits StopsAt isDigit_iff char_eq_iff takeWhile_stops toLower_eq_self toNat_toLower)

/-! Numerals. -/

/-- A run of digits without the zeros in front. -/
def significant (run : List Char) : List Char := run.dropWhile (· = '0')

/-- The order of numerals of any length: the longer one is the greater, and of two that are equally long the one with the
greater digit at the first place where they differ. -/
def compareNumerals (run other : List Char) : Ordering :=
  (compare (significant run).length (significant other).length).then
    (List.compareLex compareChars (significant run) (significant other))

theorem ofDigits_cons (c : Char) (run : List Char) :
    Decimal.ofDigits (c :: run) = (c.toNat - 48) * 10 ^ run.length + Decimal.ofDigits run := by
  have general : ∀ n, Nat.ofDigitChars 10 run n = n * 10 ^ run.length + Nat.ofDigitChars 10 run 0 := by
    induction run with
    | nil => simp
    | cons d run ih =>
        intro n
        rw [Nat.ofDigitChars_cons, Nat.ofDigitChars_cons, ih, ih (10 * 0 + _), List.length_cons, pow_succ]
        ring
  have first : Decimal.ofDigits (c :: run) = Nat.ofDigitChars 10 run (10 * 0 + (c.toNat - 48)) := rfl
  rw [first, general, Nat.mul_zero, Nat.zero_add]
  rfl

theorem ofDigits_significant (run : List Char) : Decimal.ofDigits (significant run) = Decimal.ofDigits run := by
  induction run with
  | nil => rfl
  | cons c run ih =>
      rw [significant, List.dropWhile_cons]
      split
      · next zero =>
          obtain rfl : c = '0' := of_decide_eq_true zero
          rw [ofDigits_cons, ← ih, significant]
          simp
      · rfl

section
variable {run other : List Char} {c d : Char}

theorem ofDigits_lt (h : ∀ c ∈ run, c.isDigit = true) : Decimal.ofDigits run < 10 ^ run.length := by
  induction run with
  | nil => decide
  | cons c run ih =>
      obtain ⟨digit, rest⟩ := List.forall_mem_cons.mp h
      have small := ih rest
      have nine : c.toNat - 48 ≤ 9 := by
        have := isDigit_iff.mp digit
        omega
      rw [ofDigits_cons, List.length_cons, pow_succ]
      have := Nat.mul_le_mul_right (10 ^ run.length) nine
      omega

theorem le_ofDigits (digit : c.isDigit = true) (nonzero : c ≠ '0') : 10 ^ run.length ≤ Decimal.ofDigits (c :: run) := by
  have one : 1 ≤ c.toNat - 48 := by
    have := isDigit_iff.mp digit
    have : c.toNat ≠ 48 := fun same => nonzero (char_eq_iff.mpr same)
    omega
  have := Nat.mul_le_mul_right (10 ^ run.length) one
  rw [ofDigits_cons]
  omega

/-- Numerals of one length compare digit by digit. -/
theorem compare_ofDigits (h : ∀ c ∈ run, c.isDigit = true) (h' : ∀ c ∈ other, c.isDigit = true)
    (length : run.length = other.length) :
    compare (Decimal.ofDigits run) (Decimal.ofDigits other) = List.compareLex compareChars run other := by
  induction run generalizing other with
  | nil =>
      obtain rfl := List.length_eq_zero_iff.mp length.symm
      rfl
  | cons c run ih =>
      cases other with
      | nil => cases length
      | cons d other =>
          obtain ⟨digit, rest⟩ := List.forall_mem_cons.mp h
          obtain ⟨digit', rest'⟩ := List.forall_mem_cons.mp h'
          have length := Nat.succ.inj length
          have small := ofDigits_lt rest
          have small' := ofDigits_lt rest'
          rw [List.compareLex_cons_cons, ← ih rest rest' length, ofDigits_cons, ofDigits_cons, compareChars]
          rw [← length] at small' ⊢
          have := isDigit_iff.mp digit
          have := isDigit_iff.mp digit'
          rcases lt_trichotomy c.toNat d.toNat with less | same | greater
          · have gap := Nat.mul_le_mul_right (10 ^ run.length) (show c.toNat - 48 + 1 ≤ d.toNat - 48 by omega)
            rw [Nat.add_mul, Nat.one_mul] at gap
            rw [Nat.compare_eq_lt.mpr less]
            exact Nat.compare_eq_lt.mpr (by omega)
          · rw [same, Nat.compare_eq_eq.mpr rfl, Ordering.eq_then]
            simp [Nat.compare_eq_ite_lt]
          · have gap := Nat.mul_le_mul_right (10 ^ run.length) (show d.toNat - 48 + 1 ≤ c.toNat - 48 by omega)
            rw [Nat.add_mul, Nat.one_mul] at gap
            rw [Nat.compare_eq_gt.mpr greater]
            exact Nat.compare_eq_gt.mpr (by omega)

theorem significant_digits (h : ∀ c ∈ run, c.isDigit = true) : ∀ c ∈ significant run, c.isDigit = true :=
  fun c mem => h c ((List.dropWhile_sublist _).mem mem)

/-- A shorter numeral without leading zeros denotes less. -/
theorem ofDigits_lt_of_length (h : ∀ c ∈ run, c.isDigit = true) (h' : ∀ c ∈ other, c.isDigit = true)
    (shorter : (significant run).length < (significant other).length) :
    Decimal.ofDigits run < Decimal.ofDigits other := by
  have small := ofDigits_lt (significant_digits h)
  rw [ofDigits_significant] at small
  rw [← ofDigits_significant other]
  cases first : significant other with
  | nil =>
      rw [first] at shorter
      exact absurd shorter (Nat.not_lt_zero _)
  | cons c rest =>
      have digit := significant_digits h' c (first ▸ List.mem_cons_self)
      have nonzero : c ≠ '0' := by
        have head := List.head?_dropWhile_not (· = '0') other
        rw [show other.dropWhile (· = '0') = c :: rest from first] at head
        simpa using head
      have great : 10 ^ rest.length ≤ _ := le_ofDigits digit nonzero
      have power : 10 ^ (significant run).length ≤ 10 ^ rest.length := by
        refine Nat.pow_le_pow_right (by decide) ?_
        rw [first, List.length_cons] at shorter
        omega
      omega

/-- The order of numerals is that of the numbers they denote. -/
theorem compareNumerals_eq (h : ∀ c ∈ run, c.isDigit = true) (h' : ∀ c ∈ other, c.isDigit = true) :
    compareNumerals run other = compare (Decimal.ofDigits run) (Decimal.ofDigits other) := by
  rw [compareNumerals]
  rcases lt_trichotomy (significant run).length (significant other).length with less | same | greater
  · rw [Nat.compare_eq_lt.mpr less, Nat.compare_eq_lt.mpr (ofDigits_lt_of_length h h' less)]
    rfl
  · rw [Nat.compare_eq_eq.mpr same, Ordering.eq_then,
      ← compare_ofDigits (significant_digits h) (significant_digits h') same, ofDigits_significant, ofDigits_significant]
  · rw [Nat.compare_eq_gt.mpr greater, Nat.compare_eq_gt.mpr (ofDigits_lt_of_length h' h greater)]
    rfl

end

/-! Keys. -/

/-- What the parts of a name are compared by. The place of numbers among the characters is that of the digit zero. -/
def NamePart.key : NamePart → List Char × Nat
  | .number n => (['0'], n)
  | .character c => (c, 0)

/-- By characters and then by numbers. -/
def compareKeys : List Char × Nat → List Char × Nat → Ordering :=
  compareLex (Ordering.byKey Prod.fst (List.compareLex compareChars)) (compareOn Prod.snd)

instance transCmp_compareChars : Std.TransCmp compareChars :=
  inferInstanceAs (Std.TransCmp (compareOn Char.toNat))

instance lawfulEqCmp_compareChars : Std.LawfulEqCmp compareChars where
  compare_self := Nat.compare_eq_eq.mpr rfl
  eq_of_compare same := char_eq_iff.mpr (Nat.compare_eq_eq.mp same)

instance transCmp_compareKeys : Std.TransCmp compareKeys :=
  inferInstanceAs (Std.TransCmp (compareLex _ _))

/-- A character of a name is not the digit zero, nor is its lower case. -/
def NamePart.IsLawful : NamePart → Prop
  | .number _ => True
  | .character c => c ≠ ['0']

theorem compareLex_zero {c : List Char} (h : c ≠ ['0']) :
    List.compareLex compareChars ['0'] c ≠ .eq ∧ List.compareLex compareChars c ['0'] ≠ .eq :=
  ⟨fun same => h (Std.LawfulEqCmp.eq_of_compare same).symm, fun same => h (Std.LawfulEqCmp.eq_of_compare same)⟩

theorem then_decided {o o' : Ordering} (h : o ≠ .eq) : o.then o' = o := by
  cases o <;> first | rfl | exact absurd rfl h

theorem NamePart.compare_eq {p q : NamePart} (hp : p.IsLawful) (hq : q.IsLawful) :
    p.compare q = compareKeys p.key q.key := by
  cases p with
  | number m =>
      cases q with
      | number n => rfl
      | character d => exact (then_decided (compareLex_zero hq).1).symm
  | character c =>
      cases q with
      | number n => exact (then_decided (compareLex_zero hp).2).symm
      | character d => exact Ordering.then_eq.symm

/-- What is no digit has no lower case that begins with one. -/
theorem lower_apart {c : Char} (h : c.isDigit = false) : ∃ first more, lower c = first :: more ∧ first.isDigit = false := by
  have far : ∀ n, 57 < n → (Char.ofNat n).isDigit = false := by
    intro n above
    rw [Bool.eq_false_iff, ne_eq, isDigit_iff, Char.toNat_ofNat]
    split <;> omega
  have runs : ∀ r ∈ caseRuns, 57 < r.first + r.shift := by decide
  have pairs : ∀ p ∈ casePairs, 57 < p.2 := by decide
  rw [lower]
  split
  · refine ⟨_, _, rfl, ?_⟩
    by_cases upper : 65 ≤ c.toNat ∧ c.toNat ≤ 90
    · have number := toNat_toLower upper
      rw [Bool.eq_false_iff, ne_eq, isDigit_iff]
      omega
    · rwa [toLower_eq_self upper]
  · split
    · exact ⟨_, _, rfl, by decide⟩
    · split
      · next r found =>
          refine ⟨_, _, rfl, far _ ?_⟩
          have above := runs r (List.mem_of_find?_eq_some found)
          have holds := List.find?_some found
          simp only [CaseRun.holds, Bool.and_eq_true, decide_eq_true_eq] at holds
          omega
      · split
        · next m found => exact ⟨_, _, rfl, far m (pairs _ (List.mem_of_find?_eq_some found))⟩
        · exact ⟨_, _, rfl, h⟩

theorem lower_digit {c : Char} (h : c.isDigit = true) : lower c = [c] := by
  have number := isDigit_iff.mp h
  rw [lower, if_pos (by omega), toLower_eq_self (by omega)]

theorem lower_ne_zero {c : Char} (h : c.isDigit = false) : lower c ≠ ['0'] := by
  obtain ⟨first, more, same, apart⟩ := lower_apart h
  rintro zero
  obtain rfl : first = '0' := (List.cons.inj (same.symm.trans zero)).1
  exact absurd apart (by decide)

theorem isLawful_nameParts (name : List Char) : ∀ p ∈ nameParts name, p.IsLawful := by
  induction name using nameParts.induct with
  | case1 => rw [nameParts]; exact nofun
  | case2 c rest digit ih =>
      rw [nameParts, if_pos digit]
      exact List.forall_mem_cons.mpr ⟨trivial, ih⟩
  | case3 c rest other ih =>
      rw [nameParts, if_neg other]
      exact List.forall_mem_cons.mpr ⟨lower_ne_zero (Bool.eq_false_of_not_eq_true other), ih⟩

/-- What a name is compared by. -/
def nameKeys (name : String) : List (List Char × Nat) := (nameParts name.toList).map NamePart.key

theorem compareLex_keys {ps qs : List NamePart} (hp : ∀ p ∈ ps, p.IsLawful) (hq : ∀ q ∈ qs, q.IsLawful) :
    List.compareLex NamePart.compare ps qs =
      List.compareLex compareKeys (ps.map NamePart.key) (qs.map NamePart.key) := by
  induction ps generalizing qs with
  | nil => cases qs <;> rfl
  | cons p ps ih =>
      cases qs with
      | nil => rfl
      | cons q qs =>
          obtain ⟨first, hp⟩ := List.forall_mem_cons.mp hp
          obtain ⟨first', hq⟩ := List.forall_mem_cons.mp hq
          rw [List.map_cons, List.map_cons, List.compareLex_cons_cons, List.compareLex_cons_cons,
            NamePart.compare_eq first first', ih hp hq]

theorem naturalOrder_eq : naturalOrder = Ordering.byKey nameKeys (List.compareLex compareKeys) := by
  funext a b
  exact compareLex_keys (isLawful_nameParts _) (isLawful_nameParts _)

instance transCmp_naturalOrder : Std.TransCmp naturalOrder :=
  naturalOrder_eq ▸ inferInstanceAs (Std.TransCmp (Ordering.byKey nameKeys (List.compareLex compareKeys)))

/-! Names side by side. -/

/-- Two names as they are gone through side by side: past a run of digits in each of them where both have one, else past one
character in each of them. -/
def compareNames : List Char → List Char → Ordering
  | [], [] => .eq
  | [], _ :: _ => .lt
  | _ :: _, [] => .gt
  | c :: rest, d :: other =>
    if c.isDigit ∧ d.isDigit then
      (compareNumerals (c :: rest.takeWhile Char.isDigit) (d :: other.takeWhile Char.isDigit)).then
        (compareNames (rest.dropWhile Char.isDigit) (other.dropWhile Char.isDigit))
    else (List.compareLex compareChars (lower c) (lower d)).then (compareNames rest other)
termination_by name => name.length
decreasing_by
  · exact Nat.lt_succ_of_le (length_dropWhile_le _ _)
  · simp

/-- A number stands among the characters where each of its digits does. -/
theorem compareLex_digit {c d : Char} (digit : c.isDigit = true) (other : d.isDigit = false) :
    List.compareLex compareChars (lower c) (lower d) = List.compareLex compareChars ['0'] (lower d) ∧
      List.compareLex compareChars (lower d) (lower c) = List.compareLex compareChars (lower d) ['0'] := by
  obtain ⟨first, more, same, apart⟩ := lower_apart other
  rw [Bool.eq_false_iff, ne_eq, isDigit_iff] at apart
  have number := isDigit_iff.mp digit
  have zero : '0'.toNat = 48 := rfl
  rw [same, lower_digit digit]
  simp only [List.compareLex_cons_cons, compareChars, zero]
  rcases Nat.lt_or_ge first.toNat 48 with below | above
  · rw [Nat.compare_eq_gt.mpr (show first.toNat < c.toNat by omega), Nat.compare_eq_gt.mpr below,
      Nat.compare_eq_lt.mpr (show first.toNat < c.toNat by omega), Nat.compare_eq_lt.mpr below]
    exact ⟨rfl, rfl⟩
  · rw [Nat.compare_eq_lt.mpr (show c.toNat < first.toNat by omega), Nat.compare_eq_lt.mpr (show 48 < first.toNat by omega),
      Nat.compare_eq_gt.mpr (show c.toNat < first.toNat by omega), Nat.compare_eq_gt.mpr (show 48 < first.toNat by omega)]
    exact ⟨rfl, rfl⟩

/-- The natural order is that of names gone through side by side. -/
theorem naturalOrder_eq_compareNames (a b : String) : naturalOrder a b = compareNames a.toList b.toList := by
  rw [naturalOrder]
  generalize a.toList = name
  generalize b.toList = name'
  induction name, name' using compareNames.induct with
  | case1 => rw [compareNames, nameParts]; rfl
  | case2 d other =>
      rw [compareNames, nameParts, nameParts]
      split <;> rfl
  | case3 c rest =>
      rw [compareNames, nameParts, nameParts]
      split <;> rfl
  | case4 c rest d other both ih =>
      have digits {c : Char} {rest : List Char} (first : c.isDigit = true) :
          ∀ d ∈ c :: rest.takeWhile Char.isDigit, d.isDigit = true :=
        List.forall_mem_cons.mpr ⟨first, fun d mem => List.mem_takeWhile_imp mem⟩
      rw [compareNames, if_pos both, nameParts, if_pos both.1, nameParts, if_pos both.2, List.compareLex_cons_cons, ih,
        compareNumerals_eq (digits both.1) (digits both.2)]
      rfl
  | case5 c rest d other either ih =>
      rw [compareNames, if_neg either]
      cases first : c.isDigit with
      | true =>
          cases second : d.isDigit with
          | true => exact absurd ⟨first, second⟩ either
          | false =>
              have apart := (compareLex_zero (lower_ne_zero second)).1
              rw [(compareLex_digit first second).1, then_decided apart, nameParts, if_pos first, nameParts,
                if_neg (Bool.eq_false_iff.mp second), List.compareLex_cons_cons]
              exact then_decided apart
      | false =>
          cases second : d.isDigit with
          | true =>
              have apart := (compareLex_zero (lower_ne_zero first)).2
              rw [(compareLex_digit second first).2, then_decided apart, nameParts, if_neg (Bool.eq_false_iff.mp first), nameParts,
                if_pos second, List.compareLex_cons_cons]
              exact then_decided apart
          | false =>
              rw [nameParts, if_neg (Bool.eq_false_iff.mp first), nameParts, if_neg (Bool.eq_false_iff.mp second),
                List.compareLex_cons_cons, ih]
              rfl

/-! Numbers in names. -/

theorem dropWhile_stops {p : Char → Bool} {word rest : List Char} (hw : ∀ c ∈ word, p c = true) (stop : StopsAt p rest) :
    (word ++ rest).dropWhile p = rest := by
  rw [List.dropWhile_append_of_pos hw]
  cases rest with
  | nil => rfl
  | cons c rest => rw [List.dropWhile_cons, stop c rfl]; rfl

theorem stopsAt_dropWhile (p : Char → Bool) (text : List Char) : StopsAt p (text.dropWhile p) := by
  intro c first
  have head := List.head?_dropWhile_not p text
  rw [first] at head
  simpa using head

/-- A run of digits is one part of a name. -/
theorem nameParts_run {run back : List Char} (digits : IsDigits run) (stop : StopsAt Char.isDigit back) :
    nameParts (run ++ back) = .number (Decimal.ofDigits run) :: nameParts back := by
  obtain ⟨some, digits⟩ := digits
  cases run with
  | nil => exact absurd rfl some
  | cons c run =>
      obtain ⟨first, rest⟩ := List.forall_mem_cons.mp digits
      rw [List.cons_append, nameParts, if_pos first, takeWhile_stops rest stop, dropWhile_stops rest stop]

/-- A text does not end in a digit. -/
def EndsApart (front : List Char) : Prop := ∀ c, front.getLast? = some c → c.isDigit = false

theorem nameParts_append {front back : List Char} (h : EndsApart front) :
    nameParts (front ++ back) = nameParts front ++ nameParts back := by
  induction front using nameParts.induct with
  | case1 => rw [nameParts]; rfl
  | case2 c rest digit ih =>
      have run : IsDigits (c :: rest.takeWhile Char.isDigit) :=
        ⟨List.cons_ne_nil _ _, List.forall_mem_cons.mpr ⟨digit, fun d mem => List.mem_takeWhile_imp mem⟩⟩
      have whole : c :: rest = (c :: rest.takeWhile Char.isDigit) ++ rest.dropWhile Char.isDigit := by
        rw [List.cons_append, List.takeWhile_append_dropWhile]
      -- the text does not end in the run, so something that is no digit stands behind it
      have more : rest.dropWhile Char.isDigit ≠ [] := by
        intro none
        rw [none, List.append_nil] at whole
        have last := (congrArg List.getLast? whole).trans (List.getLast?_eq_some_getLast run.1)
        have digit := run.2 _ (List.getLast_mem run.1)
        rw [h _ last] at digit
        cases digit
      have later : EndsApart (rest.dropWhile Char.isDigit) := by
        intro d last
        refine h d ?_
        rw [whole, List.getLast?_append, last]
        rfl
      have stop := stopsAt_dropWhile Char.isDigit rest
      have stop' : StopsAt Char.isDigit (rest.dropWhile Char.isDigit ++ back) := by
        intro d first
        rw [List.head?_append_of_ne_nil _ more] at first
        exact stop d first
      rw [whole, List.append_assoc, nameParts_run run stop', nameParts_run run stop, ih later]
      rfl
  | case3 c rest other ih =>
      have later : EndsApart rest := by
        intro d last
        refine h d ?_
        rw [List.getLast?_cons, last]
        rfl
      rw [List.cons_append, nameParts, if_neg other, nameParts, if_neg other, ih later]
      rfl

theorem compareLex_append {α : Type} {cmp : α → α → Ordering} {front front' : List α}
    (same : List.compareLex cmp front front' = .eq) (back back' : List α) :
    List.compareLex cmp (front ++ back) (front' ++ back') = List.compareLex cmp back back' := by
  induction front generalizing front' with
  | nil =>
      cases front' with
      | nil => rfl
      | cons => cases same
  | cons p front ih =>
      cases front' with
      | nil => cases same
      | cons q front' =>
          rw [List.compareLex_cons_cons, Ordering.then_eq_eq] at same
          rw [List.cons_append, List.cons_append, List.compareLex_cons_cons, same.1, Ordering.eq_then, ih same.2]

/-- Behind fronts that have one place in the order, names compare by their numbers, and then by what follows these. -/
theorem naturalOrder_run {front front' run run' back back' : List Char}
    (same : naturalOrder (String.ofList front) (String.ofList front') = .eq) (apart : EndsApart front)
    (apart' : EndsApart front') (digits : IsDigits run) (digits' : IsDigits run') (stop : StopsAt Char.isDigit back)
    (stop' : StopsAt Char.isDigit back') :
    naturalOrder (String.ofList (front ++ run ++ back)) (String.ofList (front' ++ run' ++ back')) =
      (compare (Decimal.ofDigits run) (Decimal.ofDigits run')).then
        (naturalOrder (String.ofList back) (String.ofList back')) := by
  simp only [naturalOrder, String.toList_ofList] at same ⊢
  rw [List.append_assoc, List.append_assoc, nameParts_append apart, nameParts_append apart', compareLex_append same,
    nameParts_run digits stop, nameParts_run digits' stop', List.compareLex_cons_cons]
  rfl

end StyleAudit.Text

namespace StyleAudit

open Selector (IsDigits StopsAt)
open Text (EndsApart compareNumerals compareNumerals_eq naturalOrder naturalOrder_run)

instance transCmp_compare : Std.TransCmp Pick.compare :=
  inferInstanceAs (Std.TransCmp
    (compareLex (Ordering.byKey Pick.directory naturalOrder) (Ordering.byKey Pick.filename naturalOrder)))

/-- A comparison by which things can be sorted: nothing comes before itself, two things compare alike from either side,
and what comes no later than something comes no later than what that comes no later than. -/
structure OrdersConsistently {α : Type} (cmp : α → α → Ordering) : Prop where
  refl : ∀ a, cmp a a = .eq
  swap : ∀ a b, cmp b a = (cmp a b).swap
  trans : ∀ a b c, cmp a b ≠ .gt → cmp b c ≠ .gt → cmp a c ≠ .gt

theorem ordersConsistently {α : Type} (cmp : α → α → Ordering) [Std.TransCmp cmp] : OrdersConsistently cmp where
  refl _ := Std.ReflCmp.compare_self
  swap _ _ := Std.OrientedCmp.eq_swap
  trans a b c := by
    simp only [ne_eq, ← Ordering.isLE_iff_ne_gt]
    exact Std.TransCmp.isLE_trans

/-- The natural order of names is a total preorder, and so is that of picks by directory and then by name. Two runs of
digits of any length, behind fronts that compare as equal, compare by the numbers they denote; what follows them counts
only when these are equal. That needs no number: leading zeros aside, the longer run denotes the greater number, and
runs of one length are compared digit by digit. -/
theorem naturalOrder_consistent :
    OrdersConsistently naturalOrder ∧ OrdersConsistently Pick.compare ∧
      (∀ {front front' run run' back back' : List Char},
        naturalOrder (String.ofList front) (String.ofList front') = .eq → EndsApart front → EndsApart front' →
        IsDigits run → IsDigits run' → StopsAt Char.isDigit back → StopsAt Char.isDigit back' →
        naturalOrder (String.ofList (front ++ run ++ back)) (String.ofList (front' ++ run' ++ back')) =
          (compare (Nat.ofDigitChars 10 run 0) (Nat.ofDigitChars 10 run' 0)).then
            (naturalOrder (String.ofList back) (String.ofList back'))) ∧
      ∀ {run run' : List Char}, IsDigits run → IsDigits run' →
        compareNumerals run run' = compare (Nat.ofDigitChars 10 run 0) (Nat.ofDigitChars 10 run' 0) :=
  ⟨ordersConsistently _, ordersConsistently _, naturalOrder_run,
    fun digits digits' => compareNumerals_eq digits.2 digits'.2⟩

/-- Letter case and leading zeros left aside, `file9` comes before `FILE0010`, and so before all that comes behind that. -/
theorem naturalOrder_consistent_files :
    naturalOrder "file9.css" "FILE0010.css" = .lt ∧ naturalOrder "FILE0010.css" "file11.css" ≠ .gt ∧
      naturalOrder "file9.css" "file11.css" ≠ .gt ∧ compareNumerals "0010".toList "9".toList = .gt := by
  obtain ⟨order, -, runs, numerals⟩ := naturalOrder_consistent
  have digits {run : List Char} (h : run ≠ [] ∧ run.all Char.isDigit = true) : IsDigits run :=
    ⟨h.1, List.all_eq_true.mp h.2⟩
  have first : naturalOrder "file9.css" "FILE0010.css" = .lt := by
    refine (@runs "file".toList "FILE".toList ['9'] "0010".toList ".css".toList ".css".toList (by cbv) ?_ ?_
      (digits (by decide)) (digits (by decide)) ?_ ?_).trans (by cbv)
    all_goals
      rintro c ⟨⟩
      rfl
  have second : naturalOrder "FILE0010.css" "file11.css" = .lt := by cbv
  have none_greater : ∀ {o : Ordering}, o = .lt → o ≠ .gt := by
    rintro _ rfl
    decide
  refine ⟨first, none_greater second, order.trans _ _ _ (none_greater first) (none_greater second), ?_⟩
  exact (numerals (digits (by decide)) (digits (by decide))).trans (by decide)

end StyleAudit
