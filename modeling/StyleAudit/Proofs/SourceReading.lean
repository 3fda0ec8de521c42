import StyleAudit.Proofs.SourceSteps
import StyleAudit.Proofs.TokenSpans
/-!
What the routines of a source cursor come to. Comments, escapes, names and numbers are read as by the scanners of the same name.
-/
namespace StyleAudit.Css.SourceCursor

open Text (isHexDigit hexNumber charOfNumber)

variable {source : List Char}

/-! White space and comments. -/

theorem spaces_cons {c : Char} (h : isSpace c = true) (rest : List Char) : spaces (c :: rest) = 1 + spaces rest := by
  rw [spaces, List.takeWhile_cons_of_pos h, List.length_cons, Nat.add_comm, spaces]

theorem takeSpaces_reads (text : List Char) : Reads source (takeSpaces source) text () (spaces text) := by
  rw [takeSpaces]
  induction text with
  | nil => exact .ends (.peek (.done _))
  | cons c rest ih =>
      by_cases space : isSpace c = true
      · rw [spaces_cons space]
        refine .step (.peek ?_) ih
        rw [List.head?_cons, Option.any_some, if_pos space]
        exact .one rfl
      · rw [spaces, List.takeWhile_cons_of_neg space]
        refine .ends (.peek ?_)
        rw [List.head?_cons, Option.any_some, if_neg space]
        exact .done _

theorem skip_reads (part rest : List Char) : Reads source (skip source part.length) (part ++ rest) () part.length := by
  induction part with
  | nil => exact .done _
  | cons c part ih =>
      rw [List.length_cons, skip, Nat.add_comm]
      exact .next ih

theorem takeComment_reads (text : List Char) : Reads source (takeComment source) text () (commentBody text) := by
  rw [takeComment]
  induction text using commentBody.induct with
  | case1 => exact .ends (.nothing (.done _))
  | case2 rest =>
      refine .ends (.next (n := 1) (.peek ?_))
      rw [List.head?_cons, if_pos ⟨rfl, rfl⟩]
      exact .one rfl
  | case3 c rest open_ ih =>
      have size : commentBody (c :: rest) = 1 + commentBody rest := by
        rw [commentBody]
        exact open_
      rw [size]
      refine .step (.last (.peek ?_)) ih
      rw [if_neg]
      · exact .done _
      · rintro ⟨rfl, slash⟩
        obtain ⟨rest, rfl⟩ := List.head?_eq_some_iff.mp slash
        exact open_ rest rfl rfl

theorem commentBody_le (text : List Char) : commentBody text ≤ text.length := by
  rcases commentBody_spec text with ⟨body, rest, rfl, size, -⟩ | ⟨size, -⟩
  · rw [size, List.length_append, List.length_cons, List.length_cons]
    omega
  · exact Nat.le_of_eq size

theorem takeComments_reads (text : List Char) : Reads source (takeComments source) text () (comments text) := by
  rw [takeComments]
  induction text using comments.induct with
  | case1 rest ih =>
      rw [comments]
      have inside := commentBody_le rest
      refine .again (z := ()) (.peek (.peekAt 1 ?_)) (by omega) (by simp only [List.length_cons]; omega) ?_
      · rw [if_pos ⟨rfl, rfl⟩]
        exact .bind (skip_reads ['/', '*'] rest) ((takeComment_reads rest).yield rfl)
      · rw [← List.drop_drop]
        exact ih
  | case2 text none =>
      have size : comments text = 0 := by
        rw [comments]
        exact none
      rw [size]
      refine .ends (.peek (.peekAt 1 ?_))
      rw [if_neg]
      · exact .done _
      · rintro ⟨slash, star⟩
        obtain ⟨rest, rfl⟩ := List.head?_eq_some_iff.mp slash
        rw [List.getElem?_cons_succ, ← List.head?_eq_getElem?] at star
        obtain ⟨rest, rfl⟩ := List.head?_eq_some_iff.mp star
        exact none rest rfl

/-! Escapes and names. -/

theorem pushHexDigits_reads (count : Nat) (digits text : List Char) :
    Reads source (pushHexDigits source count digits) text (digits ++ (text.take count).takeWhile isHexDigit)
      ((text.take count).takeWhile isHexDigit).length := by
  induction count generalizing digits text with
  | zero =>
      rw [List.take_zero, List.takeWhile_nil, List.append_nil]
      exact .done _
  | succ count ih =>
      rw [pushHexDigits]
      refine .peek ?_
      cases text with
      | nil =>
          rw [List.take_nil, List.takeWhile_nil, List.append_nil]
          exact .done _
      | cons c rest =>
          rw [List.head?_cons, Option.any_some, List.take_succ_cons]
          by_cases hex : isHexDigit c = true
          · rw [if_pos hex, List.takeWhile_cons_of_pos hex, List.length_cons, Nat.add_comm, List.append_cons]
            exact .bind (.one rfl) (ih _ rest)
          · rw [if_neg hex, List.takeWhile_cons_of_neg hex, List.append_nil]
            exact .done _

theorem startsSpace_eq (text : List Char) : startsSpace text = text.head?.any isSpace := by cases text <;> rfl

/-- The hexadecimal digits behind the first one of an escape. -/
def moreDigits (rest : List Char) : List Char := (rest.take 5).takeWhile isHexDigit

theorem escaped_hex {c : Char} (hex : isHexDigit c = true) (rest : List Char) : escaped (c :: rest) =
    ⟨charOfNumber (hexNumber (c :: moreDigits rest)),
      1 + ((moreDigits rest).length + if startsSpace (rest.drop (moreDigits rest).length) then 1 else 0)⟩ := by
  rw [escaped, if_pos hex, ← Nat.add_assoc, Nat.add_comm 1]
  rfl

theorem escaped_le (text : List Char) : (escaped text).size ≤ text.length := by
  cases text with
  | nil => exact Nat.le_refl 0
  | cons c rest =>
      by_cases hex : isHexDigit c = true
      · have digits : (moreDigits rest).length ≤ rest.length :=
          ((List.takeWhile_prefix _).trans (List.take_prefix 5 rest)).length_le
        have behind : (rest.drop (moreDigits rest).length).length = rest.length - (moreDigits rest).length := List.length_drop
        rw [escaped_hex hex, List.length_cons]
        cases left : rest.drop (moreDigits rest).length with
        | nil =>
            simp only [startsSpace, Bool.false_eq_true, if_false]
            omega
        | cons d more =>
            rw [left, List.length_cons] at behind
            simp only
            split <;> omega
      · rw [escaped, if_neg hex]
        exact Nat.le_add_left 1 _

theorem takeEscape_reads (text : List Char) : Reads source (takeEscape source) text (escaped text).value (escaped text).size := by
  rw [takeEscape]
  cases text with
  | nil => exact .nothing (.done _)
  | cons c rest =>
      by_cases hex : isHexDigit c = true
      · rw [escaped_hex hex]
        refine .next ?_
        simp only [if_pos hex]
        refine .bind (pushHexDigits_reads 5 [c] rest) (.peek ?_)
        rw [startsSpace_eq]
        cases rest.drop (moreDigits rest).length with
        | nil => exact .done _
        | cons d more =>
            rw [List.head?_cons, Option.any_some]
            split
            · exact .one rfl
            · exact .done _
      · rw [escaped, if_neg hex]
        refine .last ?_
        simp only [if_neg hex]
        exact .done _

theorem isEscape_head (c : Char) (rest : List Char) : isEscape (some c) rest.head? = startsEscape (c :: rest) := by
  cases rest <;> rfl

theorem isEscape_backslash (rest : List Char) : isEscape (some '\\') rest.head? = escapable rest := isEscape_head '\\' rest

theorem takeName_reads (text : List Char) : Reads source (takeName source) text (name text).value (name text).size := by
  rw [takeName]
  suffices general : ∀ value, Reads source _ text (value ++ (name text).value) (name text).size from general []
  intro value
  induction text using name.induct generalizing value with
  | case1 =>
      rw [name, List.append_nil]
      exact .ends (.nothing (.done _))
  | case2 c rest plain ih =>
      rw [name, if_pos plain, Text.Scan.behind_value, List.append_cons]
      refine .step (.last ?_) (ih _)
      simp only [if_pos plain]
      exact .done _
  | case3 c rest other escape e ih =>
      rw [name, if_neg other, if_pos escape]
      simp only [Text.Scan.behind_value, Text.Scan.behind_size]
      rw [List.append_cons]
      refine .round (.next ?_) (escaped_le rest) (ih _)
      simp only [if_neg other]
      refine .peek ?_
      rw [isEscape_head, if_pos escape]
      exact (takeEscape_reads rest).yield rfl
  | case4 c rest other plain =>
      rw [name, if_neg other, if_neg plain, List.append_nil]
      refine .ends (.back ?_)
      simp only [if_neg other]
      refine Reads.peekBack ?_
      rw [isEscape_head, if_neg plain]
      exact Reads.putBack (.done _)

/-! Numbers. -/

theorem startsName_reads (text : List Char) : Reads source (startsName source) text (startsIdent text) 0 := by
  rw [startsName]
  refine .peek ?_
  cases text with
  | nil => exact .done _
  | cons c rest =>
      simp only [List.head?_cons]
      by_cases dash : c = '-'
      · subst dash
        refine .peekAt 1 (.peekAt 2 ?_)
        rw [startsIdent_dash_eq]
        cases rest with
        | nil => exact .done _
        | cons d more =>
            simp only [List.getElem?_cons_succ, ← List.head?_eq_getElem?, isEscape_head, Option.any_some, List.head?_cons]
            exact .done _
      · rw [if_neg dash, startsIdent_of_ne_dash dash]
        refine .peekAt 1 ?_
        rw [List.getElem?_cons_succ, ← List.head?_eq_getElem?, isEscape_head]
        exact .done _

/-- A digit, or a point with a digit behind it. -/
theorem digit_or_point (c : Char) (rest : List Char) : (Numeral.startsDigit (c :: rest) || startsPoint (c :: rest)) =
    if c = '.' then rest.head?.any Char.isDigit else c.isDigit := by
  by_cases point : c = '.'
  · subst point
    cases rest <;> rfl
  · have none : startsPoint (c :: rest) = false := Bool.eq_false_iff.mpr fun both => point (startsPoint_cons.mp both).1
    rw [none, Bool.or_false, if_neg point]
    rfl

theorem starts_unsigned {c : Char} (h : ¬ (c = '+' ∨ c = '-')) (rest : List Char) :
    Numeral.starts (c :: rest) = if c = '.' then rest.head?.any Char.isDigit else c.isDigit := by
  rw [starts_eq, Numeral.takeSign, if_neg h]
  exact digit_or_point c rest

theorem startsNumber_reads (text : List Char) : Reads source (startsNumber source) text (Numeral.starts text) 0 := by
  rw [startsNumber, starts_eq]
  refine .peek ?_
  cases text with
  | nil => exact .done _
  | cons c rest =>
      simp only [List.head?_cons, Numeral.takeSign]
      by_cases sign : c = '+' ∨ c = '-'
      · simp only [if_pos sign]
        refine .peekAt 1 ?_
        cases rest with
        | nil => exact .done _
        | cons d more =>
            rw [digit_or_point]
            simp only [List.getElem?_cons_succ, List.getElem?_cons_zero]
            split
            · refine .peekAt 2 ?_
              rw [List.getElem?_cons_succ, List.getElem?_cons_succ, ← List.head?_eq_getElem?]
              exact .done _
            · exact .done _
      · simp only [if_neg sign]
        rw [digit_or_point]
        split
        · refine .peekAt 1 ?_
          rw [List.getElem?_cons_succ, ← List.head?_eq_getElem?]
          exact .done _
        · exact .done _

theorem pushDigits_reads (digits text : List Char) : Reads source (pushDigits source digits) text
    (digits ++ text.takeWhile Char.isDigit) (text.takeWhile Char.isDigit).length := by
  rw [pushDigits]
  induction text generalizing digits with
  | nil =>
      rw [List.takeWhile_nil, List.append_nil]
      exact .ends (.peek (.done _))
  | cons c rest ih =>
      by_cases digit : c.isDigit = true
      · rw [List.takeWhile_cons_of_pos digit, List.length_cons, Nat.add_comm, List.append_cons]
        refine .step (.peek ?_) (ih _)
        rw [List.head?_cons, Option.any_some, if_pos digit]
        exact .yield (.one rfl) rfl
      · rw [List.takeWhile_cons_of_neg digit, List.append_nil]
        refine .ends (.peek ?_)
        rw [List.head?_cons, Option.any_some, if_neg digit]
        exact .done _

theorem isSign_head (text : List Char) : isSign text.head? = (Numeral.takeSign text).1.isSome := by
  cases text with
  | nil => rfl
  | cons c rest =>
      rw [Numeral.takeSign, List.head?_cons]
      split
      · next sign => rcases sign with rfl | rfl <;> rfl
      · next plain => simpa [isSign] using plain

/-- The sign that a text begins with, where it is known whether there is one. -/
theorem sign_reads (front text : List Char) :
    Reads source (if (Numeral.takeSign text).1.isSome then pushNext source front else pure front) text
      (front ++ (Numeral.takeSign text).1.toList) (Numeral.takeSign text).1.toList.length := by
  cases text with
  | nil =>
      rw [Numeral.takeSign, Option.toList_none, List.append_nil]
      exact .done _
  | cons c rest =>
      rw [Numeral.takeSign]
      split
      · exact .one rfl
      · rw [Option.toList_none, List.append_nil]
        exact .done _

theorem pushSign_reads (front text : List Char) : Reads source (pushSign source front) text
    (front ++ (Numeral.takeSign text).1.toList) (Numeral.takeSign text).1.toList.length := by
  rw [pushSign]
  refine .peek ?_
  rw [isSign_head]
  exact sign_reads front text

theorem startsDigit_eq (text : List Char) : Numeral.startsDigit text = text.head?.any Char.isDigit := by cases text <;> rfl

theorem pushFraction_reads (front text : List Char) : Reads source (pushFraction source front) text
    (front ++ (Numeral.takeFraction text).1.elim [] ('.' :: ·),
      if (Numeral.takeFraction text).1.isNone then .integer else .number)
    ((Numeral.takeFraction text).1.elim [] ('.' :: ·)).length := by
  rw [pushFraction]
  refine .peek (.peekAt 1 ?_)
  cases point : startsPoint text with
  | true =>
      rw [takeFraction_point point]
      cases text with
      | nil => cases point
      | cons c rest =>
          obtain ⟨rfl, digit⟩ := startsPoint_cons.mp point
          rw [startsDigit_eq, List.head?_eq_getElem?] at digit
          rw [if_pos ⟨rfl, digit⟩, Option.elim_some, List.append_cons, List.length_cons, Nat.add_comm]
          exact .bind (.one rfl) (.yield (pushDigits_reads _ rest) rfl)
  | false =>
      rw [takeFraction_none point, if_neg, Option.elim_none, List.append_nil]
      · exact .done _
      · rintro ⟨first, digit⟩
        obtain ⟨rest, rfl⟩ := List.head?_eq_some_iff.mp first
        rw [List.getElem?_cons_succ, ← List.head?_eq_getElem?, ← startsDigit_eq] at digit
        exact absurd (startsPoint_cons.mpr ⟨rfl, digit⟩) (Bool.eq_false_iff.mp point)

theorem behind_sign (c : Char) (rest : List Char) :
    (c :: rest)[if (Numeral.takeSign rest).1.isSome then 2 else 1]? = (Numeral.takeSign rest).2.head? := by
  cases rest with
  | nil => rfl
  | cons d more =>
      rw [Numeral.takeSign]
      split
      · exact List.head?_eq_getElem?.symm
      · rfl

theorem pushPower_reads (front : List Char) (kind : NumericKind) (text : List Char) :
    Reads source (pushPower source front kind) text
      (front ++ (Numeral.takeExponent text).1.elim [] Numeral.exponentText,
        if (Numeral.takeExponent text).1.isNone then kind else .number)
      ((Numeral.takeExponent text).1.elim [] Numeral.exponentText).length := by
  rw [pushPower]
  refine .peek ?_
  cases text with
  | nil =>
      rw [Numeral.takeExponent, Option.elim_none, List.append_nil]
      exact .done _
  | cons c rest =>
      rw [List.head?_cons, Option.any_some]
      by_cases letter : c = 'e' ∨ c = 'E'
      · have power : Numeral.isPowerLetter c = true := by rcases letter with rfl | rfl <;> rfl
        rw [if_pos power]
        refine .peekAt 1 ?_
        simp only [List.getElem?_cons_succ, ← List.head?_eq_getElem?, isSign_head]
        refine .peekAt _ ?_
        rw [behind_sign, ← startsDigit_eq]
        by_cases digit : Numeral.startsDigit (Numeral.takeSign rest).2 = true
        · let digits := (Numeral.takeSign rest).2.takeWhile Char.isDigit
          have taken : (Numeral.takeExponent (c :: rest)).1 = some ⟨c, (Numeral.takeSign rest).1, digits⟩ := by
            rw [Numeral.takeExponent, if_pos letter]
            exact congrArg Prod.fst (if_pos digit)
          rw [if_pos digit, taken, Option.elim_some, Numeral.exponentText, List.append_cons, List.length_cons, Nat.add_comm,
            List.length_append, ← List.append_assoc]
          exact .bind (.one rfl) (.followed (sign_reads _ rest) (Numeral.takeSign_append rest) (.yield (pushDigits_reads _ _) rfl))
        · have taken : (Numeral.takeExponent (c :: rest)).1 = none := by
            rw [Numeral.takeExponent, if_pos letter]
            exact congrArg Prod.fst (if_neg digit)
          rw [if_neg digit, taken, Option.elim_none, List.append_nil]
          exact .done _
      · have plain : ¬ Numeral.isPowerLetter c = true := by simpa [Numeral.isPowerLetter] using letter
        rw [if_neg plain, Numeral.takeExponent, if_neg letter, Option.elim_none, List.append_nil]
        exact .done _

theorem takeNumber_reads {text : List Char} (h : Numeral.starts text = true) :
    Reads source (takeNumber source) text (numeric (Numeral.ofPrefix text)) (Numeral.ofPrefix text).text.length := by
  let n := Numeral.ofPrefix text
  let rest := (Numeral.takeSign text).2.dropWhile Char.isDigit
  have size : n.text.length = n.sign.toList.length + (n.whole.length + ((n.fraction.elim [] ('.' :: ·)).length +
      (n.exponent.elim [] Numeral.exponentText).length)) := by
    simp only [Numeral.text, List.length_append, Nat.add_assoc]
  have value : ((Numeral.decimalOf? n.text).map Decimal.toBinary64).getD (Binary64.zero false) = n.decimal.toBinary64 := by
    rw [(Numeral.isFormed_ofPrefix text).decimalOf?_text (Numeral.digits_ofPrefix h)]
    rfl
  have kind : (if n.exponent.isNone then if n.fraction.isNone then NumericKind.integer else .number else .number) =
      if n.isInteger then .integer else .number := by
    rw [Numeral.isInteger]
    cases n.fraction <;> cases n.exponent <;> rfl
  rw [takeNumber, size, numeric, ← value, ← kind]
  refine .followed (pushSign_reads [] text) (Numeral.takeSign_append text) ?_
  refine .followed (pushDigits_reads _ _) List.takeWhile_append_dropWhile ?_
  refine .followed (pushFraction_reads _ _) (Numeral.takeFraction_append _) ?_
  exact .yield (pushPower_reads _ _ _) rfl

theorem takeNumeric_reads {text : List Char} (h : Numeral.starts text = true) :
    Reads source (takeNumeric source) text (numericToken text).value (numericToken text).size := by
  rw [takeNumeric]
  unfold numericToken
  simp only
  split
  · next unit =>
      refine .bind (takeNumber_reads h) (.looked (startsName_reads _) ?_)
      rw [if_pos unit]
      exact .yield (takeName_reads _) rfl
  · next plain =>
      split
      · next more percent =>
          refine .bind (takeNumber_reads h) (.looked (startsName_reads _) ?_)
          rw [if_neg plain, percent]
          exact .peek (.one rfl)
      · next other =>
          refine Reads.bind (n := 0) (takeNumber_reads h) (.looked (startsName_reads _) ?_)
          rw [if_neg plain]
          refine .peek ?_
          rw [if_neg]
          · exact .done _
          · intro percent
            obtain ⟨more, same⟩ := List.head?_eq_some_iff.mp percent
            exact other more same

end StyleAudit.Css.SourceCursor
