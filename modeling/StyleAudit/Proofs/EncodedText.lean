import Mathlib
import StyleAudit.Text.Utf8
/-!
Texts as bytes. A text that is written in UTF-8 is read back as it was, so that what is known of texts is known of the files
that hold them.
-/
namespace StyleAudit.Text

/-! The bytes of a text. -/

theorem toList_loop (bytes : ByteArray) (i : Nat) (front : List UInt8) :
    ByteArray.toList.loop bytes i front = front.reverse ++ bytes.data.toList.drop i := by
  fun_induction ByteArray.toList.loop bytes i front with
  | case1 i front inside ih =>
      have here : i < bytes.data.toList.length := by simpa using inside
      rw [ih, List.drop_eq_getElem_cons here]
      simp [ByteArray.get!, inside]
  | case2 i front outside =>
      rw [List.drop_eq_nil_of_le (by simpa using Nat.le_of_not_lt outside), List.append_nil]

theorem toUtf8_eq (text : String) : toUtf8 text = text.toList.flatMap String.utf8EncodeChar := by
  have whole : text.toUTF8 = (text.toList.flatMap String.utf8EncodeChar).toByteArray := by
    conv_lhs => rw [← String.ofList_toList (s := text)]
    exact String.toByteArray_ofList
  rw [toUtf8, whole, ByteArray.toList, toList_loop, List.toList_data_toByteArray]
  rfl

/-! One character in front of other bytes. -/

theorem charOfNumber_toNat {c : Char} (some : c.toNat ≠ 0) : charOfNumber c.toNat = c := by
  rw [charOfNumber, dif_pos ⟨some, c.valid⟩]
  rfl

theorem continuation_zero (low high : Nat) (bytes : List UInt8) : continuation 0 low high bytes = [] := by
  cases bytes <;> rfl

theorem continuation_succ {more low high n : Nat} (rest : List UInt8) (inside : low ≤ n ∧ n ≤ high) (byte : n < 256) :
    continuation (more + 1) low high (UInt8.ofNat n :: rest) = n :: continuation more 0x80 0xBF rest := by
  rw [continuation, UInt8.toNat_ofNat_of_lt' byte, if_pos inside]

/-- What the first byte of a character past ASCII asks of the bytes behind it, and that they have it. -/
structure Leads (first : Nat) (behind : List Nat) (lead : LeadByte) : Prop where
  byte : 128 ≤ first ∧ first < 256
  begins : leadByte? first = some lead
  size : behind.length = lead.size
  found : ∀ rest, continuation lead.size lead.low lead.high (behind.map UInt8.ofNat ++ rest) = behind

/-- A character past ASCII is read where its bytes add up to its number. -/
theorem Leads.read {first : Nat} {behind : List Nat} {lead : LeadByte} (h : Leads first behind lead) {c : Char}
    (past : 128 ≤ c.toNat)
    (joined : behind.foldl (fun n b => 64 * n + (b - 0x80)) (first % 2 ^ (6 - behind.length)) = c.toNat)
    (rest : List UInt8) :
    ofUtf8 (UInt8.ofNat first :: (behind.map UInt8.ofNat ++ rest)) = c :: ofUtf8 rest := by
  have char : joinBytes first behind = c := by
    rw [← charOfNumber_toNat (c := c) (by omega), ← joined]
    rfl
  rw [ofUtf8, UInt8.toNat_ofNat_of_lt' h.byte.2, if_neg (Nat.not_lt.mpr h.byte.1), h.begins]
  simp only [h.found, h.size, if_true, char]
  rw [List.drop_left' (by rw [List.length_map, h.size])]

theorem leads_two {n : Nat} (above : 127 < n) (small : n ≤ 2047) :
    Leads (n / 64 % 32 + 192) [n % 64 + 128] ⟨1, 0x80, 0xBF⟩ where
  byte := by omega
  begins := by rw [leadByte?, if_pos (by omega)]
  size := rfl
  found rest := by
    have inside : 0x80 ≤ n % 64 + 128 ∧ n % 64 + 128 ≤ 0xBF := by omega
    rw [List.map_singleton, List.singleton_append, continuation_succ _ inside (by omega), continuation_zero]

theorem leads_three {n : Nat} (above : 2047 < n) (small : n ≤ 65535) (valid : n < 0xD800 ∨ 0xDFFF < n) :
    ∃ lead, Leads (n / 4096 % 16 + 224) [n / 64 % 64 + 128, n % 64 + 128] lead := by
  obtain ⟨low, high, begins, inside⟩ : ∃ low high, leadByte? (n / 4096 % 16 + 224) = some ⟨2, low, high⟩ ∧
      low ≤ n / 64 % 64 + 128 ∧ n / 64 % 64 + 128 ≤ high := by
    rw [leadByte?, if_neg (by omega)]
    split
    · exact ⟨_, _, rfl, by omega⟩
    split
    · exact ⟨_, _, rfl, by omega⟩
    · exact ⟨_, _, if_pos (by omega), by omega⟩
  refine ⟨_, by omega, begins, rfl, fun rest => ?_⟩
  rw [List.map_cons, List.map_singleton, List.cons_append, List.singleton_append, continuation_succ _ inside (by omega),
    continuation_succ _ (by omega) (by omega), continuation_zero]

theorem leads_four {n : Nat} (above : 65535 < n) (valid : n < 0x110000) :
    ∃ lead, Leads (n / 262144 % 8 + 240) [n / 4096 % 64 + 128, n / 64 % 64 + 128, n % 64 + 128] lead := by
  obtain ⟨low, high, begins, inside⟩ : ∃ low high, leadByte? (n / 262144 % 8 + 240) = some ⟨3, low, high⟩ ∧
      low ≤ n / 4096 % 64 + 128 ∧ n / 4096 % 64 + 128 ≤ high := by
    rw [leadByte?, if_neg (by omega), if_neg (by omega), if_neg (by omega), if_neg (by omega)]
    split
    · exact ⟨_, _, rfl, by omega⟩
    split
    · exact ⟨_, _, rfl, by omega⟩
    · exact ⟨_, _, if_pos (by omega), by omega⟩
  refine ⟨_, by omega, begins, rfl, fun rest => ?_⟩
  rw [List.map_cons, List.map_cons, List.map_singleton, List.cons_append, List.cons_append, List.singleton_append,
    continuation_succ _ inside (by omega), continuation_succ _ (by omega) (by omega),
    continuation_succ _ (by omega) (by omega), continuation_zero]

theorem ofUtf8_encoded (c : Char) (rest : List UInt8) :
    ofUtf8 (String.utf8EncodeChar c ++ rest) = c :: ofUtf8 rest := by
  have valid : c.toNat < 0xD800 ∨ (0xDFFF < c.toNat ∧ c.toNat < 0x110000) := c.valid
  simp only [String.utf8EncodeChar, show c.val.toNat = c.toNat from rfl]
  split
  · next one =>
      rw [List.singleton_append, ofUtf8, UInt8.toNat_ofNat_of_lt' (show c.toNat < 256 by omega), if_pos (by omega),
        Char.ofNat_toNat]
  split
  · next one two =>
      refine (leads_two (by omega) two).read (by omega) ?_ rest
      simp only [List.foldl_cons, List.foldl_nil, List.length_cons, List.length_nil]
      omega
  split
  · next two three =>
      obtain ⟨lead, leads⟩ := leads_three (n := c.toNat) (by omega) three (by omega)
      refine leads.read (by omega) ?_ rest
      simp only [List.foldl_cons, List.foldl_nil, List.length_cons, List.length_nil]
      omega
  · next three =>
      obtain ⟨lead, leads⟩ := leads_four (n := c.toNat) (by omega) (by omega)
      refine leads.read (by omega) ?_ rest
      simp only [List.foldl_cons, List.foldl_nil, List.length_cons, List.length_nil]
      omega

/-- What is written in UTF-8 is read as it was. -/
theorem ofUtf8_toUtf8 (text : String) : ofUtf8 (toUtf8 text) = text.toList := by
  rw [toUtf8_eq]
  induction text.toList with
  | nil => rw [List.flatMap_nil, ofUtf8]
  | cons c rest ih => rw [List.flatMap_cons, ofUtf8_encoded, ih]

end StyleAudit.Text
