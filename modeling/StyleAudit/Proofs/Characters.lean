import Mathlib
import StyleAudit.Selector.Grammar
import StyleAudit.Selector.PseudoName
/-!
Classes of characters as ranges of their numbers. Each class that scanners ask for is a union of intervals, so that how
two classes are related is a matter of arithmetic.
-/
namespace StyleAudit.Selector

theorem char_eq_iff {c d : Char} : c = d ↔ c.toNat = d.toNat := Char.toNat_inj.symm

theorem isUpper_iff {c : Char} : c.isUpper = true ↔ 65 ≤ c.toNat ∧ c.toNat ≤ 90 := by
  simp [Char.isUpper, UInt32.le_iff_toNat_le]

theorem isLower_iff {c : Char} : c.isLower = true ↔ 97 ≤ c.toNat ∧ c.toNat ≤ 122 := by
  simp [Char.isLower, UInt32.le_iff_toNat_le]

theorem isDigit_iff {c : Char} : c.isDigit = true ↔ 48 ≤ c.toNat ∧ c.toNat ≤ 57 := Char.isDigit_iff_toNat

theorem isAlpha_iff {c : Char} :
    c.isAlpha = true ↔ (65 ≤ c.toNat ∧ c.toNat ≤ 90) ∨ (97 ≤ c.toNat ∧ c.toNat ≤ 122) := by
  rw [Char.isAlpha, Bool.or_eq_true, isUpper_iff, isLower_iff]

theorem isZeroWidth_iff {c : Char} :
    isZeroWidth c = true ↔ (0x200b ≤ c.toNat ∧ c.toNat ≤ 0x200d) ∨ c.toNat = 0xfeff := by
  simp [isZeroWidth, char_eq_iff, Char.le_def, UInt32.le_iff_toNat_le]

theorem isSpace_iff {c : Char} :
    isSpace c = true ↔ c.toNat = 32 ∨ c.toNat = 9 ∨ c.toNat = 10 ∨ c.toNat = 13 ∨ c.toNat = 12 := by
  simp [isSpace, char_eq_iff, or_assoc]

/-- The ASCII characters of a name. -/
theorem isWordChar_iff {c : Char} :
    isWordChar c = true ↔ (65 ≤ c.toNat ∧ c.toNat ≤ 90) ∨ (97 ≤ c.toNat ∧ c.toNat ≤ 122) ∨
      (48 ≤ c.toNat ∧ c.toNat ≤ 57) ∨ c.toNat = 45 ∨ c.toNat = 95 := by
  simp [isWordChar, Char.isAlphanum, isAlpha_iff, isDigit_iff, char_eq_iff, or_assoc]

theorem isNameStart_iff {c : Char} :
    isNameStart c = true ↔ (((65 ≤ c.toNat ∧ c.toNat ≤ 90) ∨ (97 ≤ c.toNat ∧ c.toNat ≤ 122)) ∨ c.toNat = 95 ∨
      128 ≤ c.toNat) ∧ ¬ ((0x200b ≤ c.toNat ∧ c.toNat ≤ 0x200d) ∨ c.toNat = 0xfeff) := by
  rw [← isZeroWidth_iff]
  simp [isNameStart, isAlpha_iff, char_eq_iff, or_assoc]

theorem isNameChar_iff {c : Char} :
    isNameChar c = true ↔ isNameStart c = true ∨ (48 ≤ c.toNat ∧ c.toNat ≤ 57) ∨ c.toNat = 45 := by
  simp [isNameChar, isDigit_iff, char_eq_iff, or_assoc]

theorem isNameChar_of_isWordChar {c : Char} (h : isWordChar c = true) : isNameChar c = true := by
  rw [isWordChar_iff] at h
  rw [isNameChar_iff, isNameStart_iff]
  omega

theorem isBlank_iff {c : Char} : Text.isBlank c = true ↔ (9 ≤ c.toNat ∧ c.toNat ≤ 13) ∨ c.toNat = 32 ∨ c.toNat = 0x85 ∨
    c.toNat = 0xA0 ∨ c.toNat = 0x1680 ∨ (0x2000 ≤ c.toNat ∧ c.toNat ≤ 0x200A) ∨ c.toNat = 0x2028 ∨ c.toNat = 0x2029 ∨
    c.toNat = 0x202F ∨ c.toNat = 0x205F ∨ c.toNat = 0x3000 := by
  simp [Text.isBlank, or_assoc]

theorem isBlank_of_isWordChar {c : Char} (h : isWordChar c = true) : Text.isBlank c = false := by
  rw [isWordChar_iff] at h
  rw [Bool.eq_false_iff, ne_eq, isBlank_iff]
  omega

theorem isBlank_of_isSpace {c : Char} (h : isSpace c = true) : Text.isBlank c = true := by
  rw [isSpace_iff] at h
  rw [isBlank_iff]
  omega

theorem isSpace_of_not_isBlank {c : Char} (h : Text.isBlank c = false) : isSpace c = false := by
  rw [Bool.eq_false_iff]
  intro space
  rw [isBlank_of_isSpace space] at h
  cases h

theorem toLower_eq_self {c : Char} (h : ¬ (65 ≤ c.toNat ∧ c.toNat ≤ 90)) : c.toLower = c := by
  rw [Char.toLower, dif_neg]
  simpa [UInt32.le_iff_toNat_le] using h

theorem toNat_toLower {c : Char} (h : 65 ≤ c.toNat ∧ c.toNat ≤ 90) : c.toLower.toNat = c.toNat + 32 := by
  have upper : 'A'.val ≤ c.val ∧ c.val ≤ 'Z'.val := by simpa [UInt32.le_iff_toNat_le] using h
  rw [Char.toLower, dif_pos upper]
  have small : c.val.toNat ≤ 90 := h.2
  change (c.val + 32).toNat = c.val.toNat + 32
  rw [UInt32.toNat_add]
  simp
  omega

theorem toLower_eq_self_of_all {word : String} (h : (word.toList.all fun c => c.toLower == c) = true) :
    word.toLower = word := by
  have same : ∀ c ∈ word.toList, c.toLower = id c := fun c hc => eq_of_beq (List.all_eq_true.mp h c hc)
  rw [← String.toList_inj, String.toLower, String.toList_map, List.map_congr_left same, List.map_id]

theorem toLower_toLower (name : String) : name.toLower.toLower = name.toLower := by
  have same : ∀ c : Char, (Char.toLower ∘ Char.toLower) c = c.toLower := by
    intro c
    by_cases upper : 65 ≤ c.toNat ∧ c.toNat ≤ 90
    · refine toLower_eq_self ?_
      rw [toNat_toLower upper]
      omega
    · exact congrArg Char.toLower (toLower_eq_self upper)
  rw [String.toLower, String.toLower, String.map_map, funext same]

end StyleAudit.Selector
