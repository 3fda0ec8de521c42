import StyleAudit.Proofs.LoneCompounds
import StyleAudit.Proofs.UnquotedReading
/-!
Positions as arguments. A pseudo-class of positions is accepted where its argument denotes a position without its white
space; where the white space stands as the notation has it, that is where the argument is a piece of the notation.
-/
namespace StyleAudit.Selector

/-- The pseudo-class with an argument. -/
def PositionClass.call (pseudo : PositionClass) (argument : String) : String :=
  ":" ++ pseudo.name ++ "(" ++ argument ++ ")"

theorem PositionClass.toList_call (pseudo : PositionClass) (argument : String) :
    (pseudo.call argument).toList = Selector.call pseudo.name.toList argument.toList := by
  simp [PositionClass.call, Selector.call]

theorem PositionClass.parse_call_eq (pseudo : PositionClass) (argument : String) :
    parse (pseudo.call argument) = parse (String.ofList (Selector.call pseudo.name.toList argument.toList)) := by
  rw [← pseudo.toList_call, String.ofList_toList]

theorem IsBlank.eq_nil_of_head {blank rest : List Char} {c : Char} (h : IsBlank blank)
    (first : (blank ++ rest).head? = some c) (visible : isSpace c = false) : blank = [] := by
  cases blank with
  | nil => rfl
  | cons d blank =>
      obtain rfl := Option.some.inj first
      rw [h d List.mem_cons_self] at visible
      cases visible

theorem pseudoFunction_position (start stop : Nat) (pseudo : PositionClass) (argument : List Char) :
    pseudoFunction start stop pseudo.name argument =
      match Position.read argument with
      | .ok position => .ok (.position pseudo position)
      | .error fault => reject fault start := by
  obtain ⟨-, lower, -, notLanguage, found⟩ := pseudo.name_spec
  cases read : Position.read argument <;> simp only [pseudoFunction, lower, if_neg notLanguage, found, read]

/-- What is read of the pseudo-class is what its argument is read as, if the last parenthesis ends that. -/
theorem PositionClass.parse_call (pseudo : PositionClass) {argument : String}
    (ha : argumentSize 0 none (argument.toList ++ [')']) = some argument.toList.length) :
    parse (pseudo.call argument) =
      match Position.read argument.toList with
      | .ok position => .ok [⟨[.position pseudo position], []⟩]
      | .error fault => .error ⟨fault, pseudo.name.length + 2⟩ := by
  obtain ⟨word, lower, notNegation, -, -⟩ := pseudo.name_spec
  have other : (String.ofList pseudo.name.toList).toLower ≠ "not" := by rwa [String.ofList_toList, lower]
  rw [pseudo.parse_call_eq, parse_function_call word ha other, String.ofList_toList, pseudoFunction_position]
  cases Position.read argument.toList <;> rfl

theorem argumentSize_of_read {argument : List Char} {position : Position} (h : Position.read argument = .ok position) :
    argumentSize 0 none (argument ++ [')']) = some argument.length := by
  refine argumentSize_balanced (.plain fun c hc => ?_) []
  have bare := position_bare h c hc
  rw [isBareChar_iff, isPlain_iff] at bare
  simp only [isArgumentChar, Bool.and_eq_true, bne_iff_ne, ne_eq, char_eq_iff]
  simp
  omega

/-- A pseudo-class of positions is accepted where its argument is read as a position. -/
theorem PositionClass.parse_call_iff (pseudo : PositionClass) {argument : String} {position : Position} :
    parse (pseudo.call argument) = .ok [⟨[.position pseudo position], []⟩] ↔
      Position.read argument.toList = .ok position := by
  constructor
  · intro accepted
    have ha := argumentSize_of_lone pseudo.name_spec.1 (pseudo.parse_call_eq argument ▸ accepted)
    rw [pseudo.parse_call ha] at accepted
    split at accepted
    · next found =>
        simp only [Except.ok.injEq, List.cons.injEq, Complex.mk.injEq, Simple.position.injEq, and_true,
          true_and] at accepted
        rw [found, accepted]
    · cases accepted
  · intro read
    rw [pseudo.parse_call (argumentSize_of_read read), read]

/-- A pseudo-class of positions is accepted just where its argument, white space taken out and case ignored, is a piece
of the notation for a position of 32 bits other than a plain zero, and holds what that denotes. So it accepts every
argument that is a piece of the notation as it stands, and of the others those with white space where the notation has
none. -/
theorem parse_position (pseudo : PositionClass) (argument : String) :
    (∀ position, parse (pseudo.call argument) = .ok [⟨[.position pseudo position], []⟩] ↔
      Admits (compact argument.toList) position) ∧
    (∀ position, States argument.toList position ↔
      parse (pseudo.call argument) = .ok [⟨[.position pseudo position], []⟩] ∧
        IsWellSpaced (argument.toList.map Char.toLower)) ∧
    (argumentSize 0 none (argument.toList ++ [')']) = some argument.toList.length →
      ∀ list, parse (pseudo.call argument) = .ok list →
        ∃ position, list = [⟨[.position pseudo position], []⟩]) := by
  refine ⟨fun position => ?_, fun position => ?_, fun ha list accepted => ?_⟩
  · rw [pseudo.parse_call_iff, read_eq_ok_iff]
  · rw [pseudo.parse_call_iff, states_iff]
  · rw [pseudo.parse_call ha] at accepted
    split at accepted
    · next position _ => exact ⟨position, (Except.ok.inj accepted).symm⟩
    · cases accepted

/-- An argument in lower and upper case with white space at its ends and on both sides of its second sign. -/
theorem parse_position_spaced :
    argumentSize 0 none (" -2N\t+ 3 ".toList ++ [')']) = some 9 ∧
      parse (PositionClass.nthLastChild.call " -2N\t+ 3 ") = .ok [⟨[.position .nthLastChild ⟨-2, 3⟩], []⟩] ∧
      States " -2N\t+ 3 ".toList ⟨-2, 3⟩ ∧
      ∃ position, ([⟨[.position .nthLastChild ⟨-2, 3⟩], []⟩] : List Complex) = [⟨[.position .nthLastChild position], []⟩] := by
  have accepted : parse (PositionClass.nthLastChild.call " -2N\t+ 3 ") = .ok [⟨[.position .nthLastChild ⟨-2, 3⟩], []⟩] := by
    cbv
  have spaced : IsWellSpaced (" -2N\t+ 3 ".toList.map Char.toLower) :=
    @IsWellSpaced.around [' '] ['-', '2'] ['\t'] [' '] ['3'] [' '] '+' (by decide) (by decide) (by decide) (by decide)
      (.inl rfl) (by decide) (by decide)
  have law := parse_position .nthLastChild " -2N\t+ 3 "
  exact ⟨by decide, accepted, (law.2.1 _).mpr ⟨accepted, spaced⟩, law.2.2 (by decide) _ accepted⟩

/-- White space between two digits goes unseen: the argument is accepted as one number, and is no piece of the
notation. -/
theorem parse_position_gap :
    parse (PositionClass.nthChild.call "1 2") = .ok [⟨[.position .nthChild ⟨0, 12⟩], []⟩] ∧
      ∀ position, ¬ States "1 2".toList position := by
  refine ⟨by cbv, fun position states => ?_⟩
  have spaced := (states_iff.mp states).2
  generalize same : "1 2".toList.map Char.toLower = text at spaced
  change ['1', ' ', '2'] = text at same
  cases spaced with
  | @solid before text behind hb hr solid =>
      obtain rfl : before = [] := hb.eq_nil_of_head (c := '1') (by rw [← same]; rfl) (by decide)
      obtain rfl : behind = [] := hr.eq_nil_of_last (c := '2') (by rw [← List.nil_append (text ++ _), ← same]; rfl) (by decide)
      rw [List.nil_append, List.append_nil] at same
      exact absurd (solid ' ' (by rw [← same]; decide)) (by decide)
  | around =>
      have letter : 'n' ∈ ['1', ' ', '2'] := by
        rw [same]
        simp
      exact absurd letter (by decide)

/-- A position is read back from its usual notation, alone and as an argument; only zero, which no element has, is not. -/
theorem parse_text (pseudo : PositionClass) {position : Position} (hs : fits position.step = true)
    (ho : fits position.offset = true) :
    (position ≠ ⟨0, 0⟩ → Position.read position.text.toList = .ok position ∧
      parse (pseudo.call position.text) = .ok [⟨[.position pseudo position], []⟩]) ∧
    (position = ⟨0, 0⟩ → Position.read position.text.toList = .error .positionZero ∧
      parse (pseudo.call position.text) = .error ⟨.positionZero, pseudo.name.length + 2⟩) := by
  refine ⟨fun nonzero => ?_, ?_⟩
  · have read := (read_text hs ho nonzero).2
    exact ⟨read, pseudo.parse_call_iff.mpr read⟩
  · rintro rfl
    have text : (Position.text ⟨0, 0⟩).toList = ['0'] := by decide
    have read : Position.read ['0'] = .error .positionZero := by decide
    have ha : argumentSize 0 none (['0'] ++ [')']) = some 1 := by decide
    refine ⟨by rw [text, read], ?_⟩
    rw [pseudo.parse_call (by rw [text]; exact ha), text, read]

/-- The least step and the greatest offset of 32 bits, and zero. -/
theorem parse_text_extremes :
    fits (-2147483648) = true ∧ fits 2147483647 = true ∧
      Position.read "-2147483648n+2147483647".toList = .ok ⟨-2147483648, 2147483647⟩ ∧
      parse ":nth-of-type(-2147483648n+2147483647)" = .ok [⟨[.position .nthOfType ⟨-2147483648, 2147483647⟩], []⟩] ∧
      parse ":nth-of-type(0)" = .error ⟨.positionZero, 13⟩ := by
  have extremes : Position.text ⟨-2147483648, 2147483647⟩ = "-2147483648n+2147483647" := by decide
  have read := (@parse_text .nthOfType ⟨-2147483648, 2147483647⟩ (by decide) (by decide)).1 (by decide)
  have zero := (@parse_text .nthOfType ⟨0, 0⟩ (by decide) (by decide)).2 rfl
  rw [extremes] at read
  exact ⟨by decide, by decide, read.1, read.2, zero.2⟩

end StyleAudit.Selector
