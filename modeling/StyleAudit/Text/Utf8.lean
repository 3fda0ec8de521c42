import StyleAudit.Text.Escape
/-!
Reading bytes as text. Bytes that are no UTF-8 are read as replacement characters, one for each longest run that begins
a character but does not complete it.
-/
namespace StyleAudit.Text

/-- What must follow the first byte of a character: how many bytes, and the bounds of the first of them. -/
structure LeadByte where
  size : Nat
  low : Nat
  high : Nat
  deriving DecidableEq, Repr

/-- The first bytes of characters past ASCII. Their bounds leave out forms that are longer than need be, surrogates, and
numbers past the last character. -/
def leadByte? (b : Nat) : Option LeadByte :=
  if 0xC2 ≤ b ∧ b ≤ 0xDF then some ⟨1, 0x80, 0xBF⟩
  else if b = 0xE0 then some ⟨2, 0xA0, 0xBF⟩
  else if b = 0xED then some ⟨2, 0x80, 0x9F⟩
  else if 0xE1 ≤ b ∧ b ≤ 0xEF then some ⟨2, 0x80, 0xBF⟩
  else if b = 0xF0 then some ⟨3, 0x90, 0xBF⟩
  else if 0xF1 ≤ b ∧ b ≤ 0xF3 then some ⟨3, 0x80, 0xBF⟩
  else if b = 0xF4 then some ⟨3, 0x80, 0x8F⟩
  else none

/-- The bytes that go on with a character, at most `size` of them. -/
def continuation (size low high : Nat) : List UInt8 → List Nat
  | [] => []
  | b :: rest =>
    match size with
    | 0 => []
    | more + 1 =>
      if low ≤ b.toNat ∧ b.toNat ≤ high then b.toNat :: continuation more 0x80 0xBF rest else []

/-- The character of a first byte and the bytes that go on with it. -/
def joinBytes (first : Nat) (bytes : List Nat) : Char :=
  let head := first % Nat.pow 2 (6 - bytes.length)
  charOfNumber (bytes.foldl (fun n b => 64 * n + (b - 0x80)) head)

/-- The text that bytes make up. -/
def ofUtf8 (bytes : List UInt8) : List Char :=
  match bytes with
  | [] => []
  | b :: rest =>
    if b.toNat < 128 then Char.ofNat b.toNat :: ofUtf8 rest
    else match leadByte? b.toNat with
      | none => replacement :: ofUtf8 rest
      | some lead =>
        let found := continuation lead.size lead.low lead.high rest
        let c := if found.length = lead.size then joinBytes b.toNat found else replacement
        c :: ofUtf8 (rest.drop found.length)
termination_by bytes.length
decreasing_by all_goals simp only [List.length_drop, List.length_cons]; omega

def toUtf8 (text : String) : List UInt8 := text.toUTF8.toList

end StyleAudit.Text
