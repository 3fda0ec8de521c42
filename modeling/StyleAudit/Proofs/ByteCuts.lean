import StyleAudit.Proofs.EditRanges
import StyleAudit.Proofs.EncodedText
/-!
Texts cut as bytes. A place between two characters has an offset in bytes, and a text may be cut there and nowhere else: so
edits of a text are edits of its bytes, if their ranges are counted in bytes.
-/
namespace StyleAudit.Selector

/-! Texts as bytes. -/

/-- A byte, held as the character of its number. -/
def byteChar (b : UInt8) : Char := Char.ofNat b.toNat

/-- The bytes of a text. -/
def bytes (text : List Char) : List Char := (Text.toUtf8 (String.ofList text)).map byteChar

/-- The text that bytes make up. -/
def chars (bytes : List Char) : List Char := Text.ofUtf8 (bytes.map fun c => UInt8.ofNat c.toNat)

/-- No character is cut apart: the byte behind goes on with none, or there is none behind. -/
def isBoundary (text : List Char) (i : Nat) : Bool :=
  match text[i]? with
  | some c => c.toNat < 128 || 192 ≤ c.toNat
  | none => i == text.length

/-- The bytes from one place to another, if no character is cut apart at either. -/
def slice? (text : List Char) (start stop : Nat) : Option (List Char) :=
  if start ≤ stop ∧ isBoundary text start = true ∧ isBoundary text stop = true then
    some ((text.drop start).take (stop - start))
  else none

/-- How many bytes the first characters of a text take. -/
def byteOffset (text : List Char) (n : Nat) : Nat := (bytes (text.take n)).length

/-- An edit of a text as an edit of its bytes. -/
def Edit.inBytes (text : List Char) (e : Edit) : Edit :=
  ⟨byteOffset text e.start, byteOffset (text.drop e.start) e.size, bytes e.replacement⟩

/-- What bytes become by edits that are applied one after the other, from what was copied last. Cuts may fail. -/
def Edit.applyBytes? (text : List Char) (copied : Nat) : List Edit → Option (List Char)
  | [] => slice? text copied text.length
  | e :: rest =>
    match slice? text copied e.start, Edit.applyBytes? text e.stop rest with
    | some kept, some behind => some (kept ++ e.replacement ++ behind)
    | _, _ => none

/-! The bytes of a character. -/

/-- The bytes of a character. -/
def encoded (c : Char) : List Char := (String.utf8EncodeChar c).map byteChar

theorem toNat_byteChar {n : Nat} (byte : n < 256) : (byteChar (UInt8.ofNat n)).toNat = n := by
  rw [byteChar, UInt8.toNat_ofNat_of_lt' byte, Char.toNat_ofNat, if_pos (.inl (by omega))]

theorem encoded_ascii {c : Char} (ascii : c.toNat < 128) : encoded c = [c] := by
  have one : c.toNat ≤ 127 := Nat.le_of_lt_succ ascii
  rw [encoded, String.utf8EncodeChar]
  simp only [show c.val.toNat = c.toNat from rfl, if_pos one, List.map_singleton, byteChar,
    UInt8.toNat_ofNat_of_lt' (show c.toNat < 256 by omega), Char.ofNat_toNat]

/-- A first byte that does not go on with a character, and bytes past ASCII behind it. -/
structure IsPast (bytes : List Char) : Prop where
  nonempty : bytes ≠ []
  first : ∀ b, bytes.head? = some b → 192 ≤ b.toNat
  all : ∀ b ∈ bytes, 128 ≤ b.toNat

theorem isPast_map {first : Nat} (rest : List Nat) (here : 192 ≤ first ∧ first < 256)
    (later : ∀ n ∈ rest, 128 ≤ n ∧ n < 256) :
    IsPast ((UInt8.ofNat first :: rest.map UInt8.ofNat).map byteChar) := by
  rw [List.map_cons]
  refine ⟨List.cons_ne_nil _ _, ?_, List.forall_mem_cons.mpr ⟨?_, ?_⟩⟩
  · rintro b begins
    obtain rfl := Option.some.inj begins
    rw [toNat_byteChar here.2]
    exact here.1
  · rw [toNat_byteChar here.2]
    omega
  · intro b mem
    rw [List.map_map] at mem
    obtain ⟨n, part, rfl⟩ := List.mem_map.mp mem
    rw [Function.comp_apply, toNat_byteChar (later n part).2]
    exact (later n part).1

theorem isPast_encoded {c : Char} (past : 128 ≤ c.toNat) : IsPast (encoded c) := by
  rw [encoded]
  simp only [String.utf8EncodeChar, show c.val.toNat = c.toNat from rfl, if_neg (show ¬ c.toNat ≤ 127 by omega)]
  split
  · exact isPast_map [_] (by omega) (List.forall_mem_singleton.mpr (by omega))
  split
  · refine isPast_map [_, _] (by omega) (List.forall_mem_cons.mpr ⟨by omega, ?_⟩)
    exact List.forall_mem_singleton.mpr (by omega)
  · refine isPast_map [_, _, _] (by omega) (List.forall_mem_cons.mpr ⟨by omega, ?_⟩)
    refine List.forall_mem_cons.mpr ⟨by omega, ?_⟩
    exact List.forall_mem_singleton.mpr (by omega)

/-- The bytes of a character past ASCII begin with one that is past ASCII, too. -/
theorem exists_encoded_past {c : Char} (past : ¬ c.toNat < 128) :
    ∃ b more, encoded c = b :: more ∧ ¬ b.toNat < 128 := by
  have whole := isPast_encoded (Nat.le_of_not_lt past)
  obtain ⟨b, more, same⟩ := List.exists_cons_of_ne_nil whole.nonempty
  exact ⟨b, more, same, Nat.not_lt.mpr (whole.all b (same ▸ List.mem_cons_self))⟩

theorem encoded_ne_nil (c : Char) : encoded c ≠ [] := by
  by_cases ascii : c.toNat < 128
  · rw [encoded_ascii ascii]
    exact List.cons_ne_nil _ _
  · exact (isPast_encoded (Nat.le_of_not_lt ascii)).nonempty

/-! The bytes of a text. -/

theorem bytes_eq (text : List Char) : bytes text = text.flatMap encoded := by
  rw [bytes, Text.toUtf8_eq, String.toList_ofList, List.map_flatMap]
  rfl

@[simp] theorem bytes_nil : bytes [] = [] := bytes_eq []

theorem bytes_cons (c : Char) (rest : List Char) : bytes (c :: rest) = encoded c ++ bytes rest := by
  rw [bytes_eq, bytes_eq, List.flatMap_cons]

theorem bytes_append (front back : List Char) : bytes (front ++ back) = bytes front ++ bytes back := by
  rw [bytes_eq, bytes_eq, bytes_eq, List.flatMap_append]

theorem bytes_cons_ascii {c : Char} (ascii : c.toNat < 128) (rest : List Char) : bytes (c :: rest) = c :: bytes rest := by
  rw [bytes_cons, encoded_ascii ascii]
  rfl

theorem bytes_ascii {word : List Char} (h : ∀ c ∈ word, c.toNat < 128) : bytes word = word := by
  induction word with
  | nil => exact bytes_nil
  | cons c word ih =>
      rw [bytes_cons_ascii (h c List.mem_cons_self), ih fun d mem => h d (List.mem_cons_of_mem c mem)]

theorem bytes_ne_nil {text : List Char} (h : text ≠ []) : bytes text ≠ [] := by
  obtain ⟨c, rest, rfl⟩ := List.exists_cons_of_ne_nil h
  rw [bytes_cons]
  exact List.append_ne_nil_of_left_ne_nil (encoded_ne_nil c) _

theorem chars_bytes (text : List Char) : chars (bytes text) = text := by
  have same (b : UInt8) : UInt8.ofNat (byteChar b).toNat = b := by
    have small := b.toNat_lt
    rw [byteChar, Char.toNat_ofNat, if_pos (.inl (by omega)), UInt8.ofNat_toNat]
  have back : (bytes text).map (fun c => UInt8.ofNat c.toNat) = Text.toUtf8 (String.ofList text) := by
    rw [bytes, List.map_map]
    exact (List.map_congr_left fun b _ => same b).trans (List.map_id _)
  rw [chars, back, Text.ofUtf8_toUtf8, String.toList_ofList]

/-- The bytes of a text begin with its first character, or past ASCII as it does. -/
theorem bytes_begin (c : Char) (rest : List Char) : (c.toNat < 128 ∧ bytes (c :: rest) = c :: bytes rest) ∨
    (¬ c.toNat < 128 ∧ ∃ b more, ¬ b.toNat < 128 ∧ bytes (c :: rest) = b :: more) := by
  by_cases ascii : c.toNat < 128
  · exact .inl ⟨ascii, bytes_cons_ascii ascii rest⟩
  · obtain ⟨b, more, same, past⟩ := exists_encoded_past ascii
    exact .inr ⟨ascii, b, more ++ bytes rest, past, by rw [bytes_cons, same, List.cons_append]⟩

/-! Offsets. -/

theorem byteOffset_zero (text : List Char) : byteOffset text 0 = 0 := by
  rw [byteOffset, List.take_zero, bytes_nil, List.length_nil]

theorem byteOffset_succ (c : Char) (rest : List Char) (n : Nat) :
    byteOffset (c :: rest) (n + 1) = (encoded c).length + byteOffset rest n := by
  rw [byteOffset, List.take_succ_cons, bytes_cons, List.length_append, byteOffset]

theorem byteOffset_add (text : List Char) (m n : Nat) :
    byteOffset text (m + n) = byteOffset text m + byteOffset (text.drop m) n := by
  rw [byteOffset, List.take_add, bytes_append, List.length_append, byteOffset, byteOffset]

theorem byteOffset_append (front back : List Char) (n : Nat) :
    byteOffset (front ++ back) (front.length + n) = (bytes front).length + byteOffset back n := by
  rw [byteOffset_add, List.drop_left, byteOffset, List.take_left]

theorem byteOffset_left (front back : List Char) : byteOffset (front ++ back) front.length = (bytes front).length := by
  rw [byteOffset, List.take_left]

theorem byteOffset_length (text : List Char) : byteOffset text text.length = (bytes text).length := by
  rw [byteOffset, List.take_length]

theorem byteOffset_lt {text : List Char} {m n : Nat} (less : m < n) (inside : n ≤ text.length) :
    byteOffset text m < byteOffset text n := by
  have some : (text.drop m).take (n - m) ≠ [] := by
    rw [← List.length_pos_iff, List.length_take, List.length_drop]
    omega
  have between := List.length_pos_iff.mpr (bytes_ne_nil some)
  rw [show n = m + (n - m) by omega, byteOffset_add]
  exact Nat.lt_add_of_pos_right between

theorem byteOffset_le {text : List Char} {m n : Nat} (le : m ≤ n) : byteOffset text m ≤ byteOffset text n := by
  rw [show n = m + (n - m) by omega, byteOffset_add]
  exact Nat.le_add_right _ _

theorem bytes_take_drop (text : List Char) (n : Nat) : bytes text = bytes (text.take n) ++ bytes (text.drop n) := by
  rw [← bytes_append, List.take_append_drop]

theorem drop_bytes (text : List Char) (n : Nat) : (bytes text).drop (byteOffset text n) = bytes (text.drop n) := by
  rw [bytes_take_drop text n, byteOffset, List.drop_left]

theorem take_bytes (text : List Char) (n : Nat) : (bytes text).take (byteOffset text n) = bytes (text.take n) := by
  rw [bytes_take_drop text n, byteOffset, List.take_left]

/-! Cuts. -/

/-- A text may be cut between any two characters. -/
theorem isBoundary_bytes (text : List Char) (n : Nat) : isBoundary (bytes text) (byteOffset text n) = true := by
  have here : (bytes text)[byteOffset text n]? = (bytes (text.drop n)).head? := by
    rw [← drop_bytes, List.head?_drop]
  rw [isBoundary, here]
  cases behind : text.drop n with
  | nil =>
      have whole : text.take n = text := List.take_of_length_le (List.drop_eq_nil_iff.mp behind)
      rw [byteOffset, whole, bytes_nil]
      exact beq_self_eq_true (bytes text).length
  | cons c rest =>
      rw [bytes_cons]
      by_cases ascii : c.toNat < 128
      · rw [encoded_ascii ascii]
        exact Bool.or_eq_true_iff.mpr (.inl (decide_eq_true ascii))
      · have past := isPast_encoded (Nat.le_of_not_lt ascii)
        obtain ⟨b, more, same⟩ := List.exists_cons_of_ne_nil past.nonempty
        rw [same]
        exact Bool.or_eq_true_iff.mpr (.inr (decide_eq_true (past.first b (by rw [same]; rfl))))

theorem slice?_bytes (text : List Char) {m n : Nat} (le : m ≤ n) :
    slice? (bytes text) (byteOffset text m) (byteOffset text n) = some (bytes ((text.drop m).take (n - m))) := by
  have size : byteOffset text n - byteOffset text m = byteOffset (text.drop m) (n - m) := by
    have sum := byteOffset_add text m (n - m)
    rw [Nat.add_sub_of_le le] at sum
    omega
  rw [slice?, if_pos ⟨byteOffset_le le, isBoundary_bytes text m, isBoundary_bytes text n⟩, drop_bytes, size, take_bytes]

/-- The rest of a text behind some of its characters. -/
theorem slice?_rest (text : List Char) {m : Nat} (le : m ≤ text.length) :
    slice? (bytes text) (byteOffset text m) (bytes text).length = some (bytes (text.drop m)) := by
  rw [← byteOffset_length, slice?_bytes text le, List.take_of_length_le (by rw [List.length_drop])]

/-- Where there is a byte of ASCII, there is a character. -/
theorem exists_of_byte {text : List Char} {i : Nat} {c : Char} (ascii : c.toNat < 128) (h : (bytes text)[i]? = some c) :
    ∃ front rest, text = front ++ c :: rest ∧ i = (bytes front).length := by
  induction text generalizing i with
  | nil => simp at h
  | cons d text ih =>
      rw [bytes_cons] at h
      by_cases inside : i < (encoded d).length
      · rw [List.getElem?_append_left inside] at h
        by_cases ascii' : d.toNat < 128
        · rw [encoded_ascii ascii'] at h inside
          obtain rfl : i = 0 := Nat.lt_one_iff.mp inside
          obtain rfl : d = c := Option.some.inj h
          refine ⟨[], text, rfl, ?_⟩
          rw [bytes_nil]
          rfl
        · have past := (isPast_encoded (Nat.le_of_not_lt ascii')).all c (List.mem_of_getElem? h)
          omega
      · rw [List.getElem?_append_right (Nat.le_of_not_lt inside)] at h
        obtain ⟨front, rest, rfl, size⟩ := ih h
        refine ⟨d :: front, rest, rfl, ?_⟩
        rw [bytes_cons, List.length_append]
        omega

/-- A text may be cut in front of a byte of ASCII and behind it. -/
theorem isBoundary_of_byte {text : List Char} {i : Nat} {c : Char} (ascii : c.toNat < 128) (h : (bytes text)[i]? = some c) :
    isBoundary (bytes text) i = true ∧ isBoundary (bytes text) (i + 1) = true := by
  obtain ⟨front, rest, rfl, rfl⟩ := exists_of_byte ascii h
  have here := isBoundary_bytes (front ++ c :: rest) front.length
  have behind := isBoundary_bytes (front ++ c :: rest) (front.length + 1)
  rw [byteOffset_left] at here
  rw [byteOffset_append, byteOffset_succ, byteOffset_zero, encoded_ascii ascii] at behind
  exact ⟨here, behind⟩

/-! Edits. -/

theorem Edit.stop_inBytes (text : List Char) (e : Edit) : (e.inBytes text).stop = byteOffset text e.stop :=
  (byteOffset_add text e.start e.size).symm

theorem Edit.slice?_inBytes (text : List Char) (e : Edit) :
    slice? (bytes text) (e.inBytes text).start (e.inBytes text).stop = some (bytes (e.matched text)) := by
  have cut := slice?_bytes text (Nat.le_add_right e.start e.size)
  rw [Nat.add_sub_cancel_left] at cut
  rw [Edit.stop_inBytes]
  exact cut

theorem AreRanges.inBytes {text : List Char} {edits : List Edit} (h : AreRanges text edits) :
    AreRanges (bytes text) (edits.map (Edit.inBytes text)) where
  visible := by
    refine List.forall_mem_map.mpr ?_
    intro e mem
    have stop := Edit.stop_inBytes text e
    have more := byteOffset_lt (show e.start < e.stop from Nat.lt_add_of_pos_right (h.visible e mem)) (h.inside e mem)
    rw [← stop, Edit.stop] at more
    exact Nat.lt_add_right_iff_pos.mp more
  inside := by
    refine List.forall_mem_map.mpr ?_
    intro e mem
    rw [Edit.stop_inBytes, ← byteOffset_length]
    exact byteOffset_le (h.inside e mem)
  ordered := by
    rw [List.pairwise_map]
    refine h.ordered.imp_of_mem ?_
    intro e later _ mem order
    rw [Edit.stop_inBytes]
    have inside := h.inside later mem
    rw [Edit.stop] at inside
    exact ⟨byteOffset_lt order.1 (by omega), byteOffset_le order.2⟩

theorem applyBytes?_map {text : List Char} {edits : List Edit} {copied : Nat} (inside : copied ≤ text.length)
    (behind : ∀ e ∈ edits, copied ≤ e.start) (within : ∀ e ∈ edits, e.stop ≤ text.length)
    (ordered : edits.Pairwise fun e later => e.start < later.start ∧ e.stop ≤ later.start) :
    Edit.applyBytes? (bytes text) (byteOffset text copied) (edits.map (Edit.inBytes text)) =
      some (bytes (Edit.applyFrom copied (text.drop copied) edits)) := by
  induction ordered generalizing copied with
  | nil => exact slice?_rest text inside
  | @cons e edits first _ ih =>
      have here := behind e List.mem_cons_self
      have kept := slice?_bytes text here
      have rest := ih (within e List.mem_cons_self) (fun later mem => (first later mem).2)
        fun later mem => within later (List.mem_cons_of_mem _ mem)
      have stop : copied + (e.stop - copied) = e.stop := Nat.add_sub_of_le (here.trans (Nat.le_add_right _ _))
      rw [List.map_cons, Edit.applyBytes?, Edit.stop_inBytes, rest]
      simp only [Edit.inBytes, kept]
      rw [Edit.applyFrom, List.drop_drop, stop, bytes_append, bytes_append]

theorem AreRanges.applyBytes? {text : List Char} {edits : List Edit} (h : AreRanges text edits) :
    Edit.applyBytes? (bytes text) 0 (edits.map (Edit.inBytes text)) = some (bytes (Edit.applyAll text edits)) := by
  have applied := applyBytes?_map (Nat.zero_le _) (fun _ _ => Nat.zero_le _) h.inside h.ordered
  rw [byteOffset_zero] at applied
  exact applied

end StyleAudit.Selector
