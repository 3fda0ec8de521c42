import StyleAudit.Proofs.PositionNotation
/-!
The text of a position and the reading of it. A position other than zero is read back from its usual notation, and
that notation consists of digits, signs and the letter n alone.
-/
namespace StyleAudit.Selector

/-- The characters that the usual notation of a position is made of. -/
def isPositionChar (c : Char) : Bool := c.isDigit || c == '+' || c == '-' || c == 'n'

theorem isPositionChar_iff {c : Char} : isPositionChar c = true ↔
    (48 ≤ c.toNat ∧ c.toNat ≤ 57) ∨ c.toNat = 43 ∨ c.toNat = 45 ∨ c.toNat = 110 := by
  simp [isPositionChar, isDigit_iff, char_eq_iff, or_assoc]

theorem isDigit_of_mem_digits {n : Nat} {c : Char} (h : c ∈ Nat.toDigits 10 n) : c.isDigit = true :=
  Nat.isDigit_of_mem_toDigits (by decide) (by decide) h

theorem ofDigits_digits (n : Nat) : Decimal.ofDigits (Nat.toDigits 10 n) = n := Nat.ofDigitChars_ten_toDigits

theorem isDigits_digits (n : Nat) : IsDigits (Nat.toDigits 10 n) :=
  ⟨Nat.toDigits_ne_nil, fun _ => isDigit_of_mem_digits⟩

theorem toList_toString (n : Int) :
    (toString n).toList = if n < 0 then '-' :: Nat.toDigits 10 n.natAbs else Nat.toDigits 10 n.natAbs := by
  cases n with
  | ofNat n => simp [toString, Int.repr]
  | negSucc n => simp [toString, Int.repr]

theorem toList_signed (n : Int) :
    (Position.signed n).toList = (if n < 0 then '-' else '+') :: Nat.toDigits 10 n.natAbs := by
  rw [Position.signed, String.toList_append, toList_toString]
  split <;> rfl

/-- A sign and the digits of the absolute value. -/
theorem isNumeral_digits {n factor : Int} {sign : List Char} (hs : IsSign sign factor) (hn : factor * n.natAbs = n) :
    IsNumeral (sign ++ Nat.toDigits 10 n.natAbs) n := by
  have numeral := IsNumeral.signed hs (isDigits_digits n.natAbs)
  rwa [ofDigits_digits, hn] at numeral

theorem isNumeral_toString (n : Int) : IsNumeral (toString n).toList n := by
  rw [toList_toString]
  split
  · exact isNumeral_digits .minus (by omega)
  · exact isNumeral_digits .none (by omega)

theorem isOffset_signed (n : Int) : IsOffset (Position.signed n).toList n := by
  have shifted {c : Char} {factor : Int} (hs : IsSign [c] factor) (hn : factor * n.natAbs = n) :
      IsOffset (c :: Nat.toDigits 10 n.natAbs) n := by
    have offset := IsOffset.signed .nil hs .nil (isDigits_digits n.natAbs)
    rwa [ofDigits_digits, hn] at offset
  rw [toList_signed]
  split
  · exact shifted .minus (by omega)
  · exact shifted .plus (by omega)

/-- The usual notation is a piece of the notation. -/
theorem denotes_text (p : Position) : Denotes p.text.toList p := by
  obtain ⟨step, offset⟩ := p
  rw [Position.text]
  split
  · next zero =>
      obtain rfl : step = 0 := zero
      exact .numeral (isNumeral_toString offset)
  · split
    · next alone =>
        obtain rfl : offset = 0 := alone
        rw [String.toList_append]
        exact .stepped (.numeral (isNumeral_toString step)) .none
    · rw [String.toList_append, String.toList_append, List.append_assoc]
      exact .stepped (.numeral (isNumeral_toString step)) (isOffset_signed offset)

/-- Reading leaves the characters of a position as they are. -/
theorem compact_positionChars {text : List Char} (h : ∀ c ∈ text, isPositionChar c = true) : compact text = text := by
  have kept : text.filter (!isSpace ·) = text := by
    rw [List.filter_eq_self]
    intro c hc
    have range := isPositionChar_iff.mp (h c hc)
    rw [Bool.not_eq_true', Bool.eq_false_iff, ne_eq, isSpace_iff]
    omega
  have lower : ∀ c ∈ text, c.toLower = id c := by
    intro c hc
    have range := isPositionChar_iff.mp (h c hc)
    exact toLower_eq_self (by omega)
  rw [compact, kept, List.map_congr_left lower, List.map_id]

theorem isPositionChar_toString (n : Int) : ∀ c ∈ (toString n).toList, isPositionChar c = true := by
  intro c hc
  rw [toList_toString] at hc
  split at hc
  · rcases List.mem_cons.mp hc with rfl | later
    · rfl
    · simp [isPositionChar, isDigit_of_mem_digits later]
  · simp [isPositionChar, isDigit_of_mem_digits hc]

theorem isPositionChar_signed (n : Int) : ∀ c ∈ (Position.signed n).toList, isPositionChar c = true := by
  intro c hc
  rw [Position.signed, String.toList_append, List.mem_append] at hc
  rcases hc with sign | number
  · split at sign
    · simp at sign
    · obtain rfl : c = '+' := by simpa using sign
      rfl
  · exact isPositionChar_toString n c number

theorem isPositionChar_text (p : Position) : ∀ c ∈ p.text.toList, isPositionChar c = true := by
  have step := isPositionChar_toString p.step
  have letter : isPositionChar 'n' = true := rfl
  rw [Position.text]
  split
  · exact isPositionChar_toString p.offset
  · split
    · rw [String.toList_append]
      exact List.forall_mem_append.mpr ⟨step, List.forall_mem_singleton.mpr letter⟩
    · rw [String.toList_append, String.toList_append, List.append_assoc]
      exact List.forall_mem_append.mpr ⟨step, List.forall_mem_cons.mpr ⟨letter, isPositionChar_signed p.offset⟩⟩

/-- Only for zero is the usual notation a plain zero. -/
theorem nonzero_text {p : Position} (ho : fits p.offset = true) (hp : p ≠ ⟨0, 0⟩) : ¬ IsNumeral p.text.toList 0 := by
  obtain ⟨step, offset⟩ := p
  intro zero
  rw [Position.text] at zero
  split at zero
  · next alone =>
      obtain rfl : step = 0 := alone
      have read := integer?_eq_some_iff.mpr ⟨zero, fits_zero⟩
      rw [integer?_eq_some_iff.mpr ⟨isNumeral_toString offset, ho⟩] at read
      exact hp (by rw [Option.some.inj read])
  · have letter : 'n' ∈ (toString step ++ "n").toList := by simp
    refine zero.no_letter (c := 'n') (by decide) ?_
    split
    · exact letter
    · rw [String.toList_append]
      exact List.mem_append_left _ letter

/-- A position other than zero is what its usual notation reads as. -/
theorem read_text {p : Position} (hs : fits p.step = true) (ho : fits p.offset = true) (hp : p ≠ ⟨0, 0⟩) :
    (∀ c ∈ p.text.toList, isPositionChar c = true) ∧ Position.read p.text.toList = .ok p := by
  have chars := isPositionChar_text p
  refine ⟨chars, read_eq_ok_iff.mpr ?_⟩
  rw [compact_positionChars chars]
  exact ⟨denotes_text p, hs, ho, nonzero_text ho hp⟩

end StyleAudit.Selector
