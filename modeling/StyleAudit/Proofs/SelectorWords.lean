import Mathlib.Data.List.TakeWhile
import StyleAudit.Proofs.Characters
/-!
Words, white space and arguments in front of other text. What a scanner reads depends on the first character behind it,
so each statement says where the scanner stops.
-/
namespace StyleAudit.Selector

open Text (Scan)

/-- White space alone. -/
def IsBlank (text : List Char) : Prop := ∀ c ∈ text, isSpace c = true

instance (text : List Char) : Decidable (IsBlank text) := decidable_of_iff (text.all isSpace = true) List.all_eq_true

/-- A text that does not go on with a character of the class. -/
def StopsAt (p : Char → Bool) (text : List Char) : Prop := ∀ c, text.head? = some c → p c = false

/-- A letter or an underscore. -/
def isLetter (c : Char) : Bool := c.isAlpha || c == '_'

/-- A name in ASCII, written without escapes, that does not begin like a number. -/
def isIdentifier : List Char → Bool
  | [] => false
  | '-' :: rest => (match rest with | [] => false | c :: _ => isLetter c || c == '-') && rest.all isWordChar
  | c :: rest => isLetter c && rest.all isWordChar

/-- The characters with which a name goes on. -/
def extendsName (c : Char) : Bool := isNameChar c || c == '\\'

theorem IsBlank.nil : IsBlank [] := by intro c hc; cases hc

theorem StopsAt.nil {p : Char → Bool} : StopsAt p [] := by intro c h; cases h

theorem StopsAt.cons {p : Char → Bool} {c : Char} {rest : List Char} (h : p c = false) : StopsAt p (c :: rest) := by
  intro d hd
  obtain rfl : c = d := by simpa using hd
  exact h

theorem StopsAt.mono {p q : Char → Bool} {text : List Char} (h : StopsAt p text) (hq : ∀ c, q c = true → p c = true) :
    StopsAt q text := by
  intro c hc
  cases hqc : q c with
  | false => rfl
  | true => rw [← h c hc, hq c hqc]

theorem takeWhile_stops {p : Char → Bool} {word rest : List Char} (hw : ∀ c ∈ word, p c = true) (stop : StopsAt p rest) :
    (word ++ rest).takeWhile p = word := by
  have none : rest.takeWhile p = [] := by
    cases rest with
    | nil => rfl
    | cons c rest => rw [List.takeWhile_cons, stop c rfl]; rfl
  rw [List.takeWhile_append_of_pos hw, none, List.append_nil]

theorem spaces_append {before rest : List Char} (hb : IsBlank before) (hr : StopsAt isSpace rest) :
    spaces (before ++ rest) = before.length := by
  rw [spaces, takeWhile_stops hb hr]

theorem startsEscape_of_stops {text : List Char} (h : StopsAt extendsName text) : startsEscape text = false := by
  unfold startsEscape
  split
  · exact absurd (h _ rfl) (by decide)
  · rfl

theorem nameChars_of_stops {text : List Char} (h : StopsAt extendsName text) : nameChars text = ⟨[], 0⟩ := by
  have escape := startsEscape_of_stops h
  cases text with
  | nil => rw [nameChars]
  | cons c rest =>
      have letter : isNameChar c = false := by
        have := h c rfl
        simp only [extendsName, Bool.or_eq_false_iff] at this
        exact this.1
      rw [nameChars, letter, escape]
      simp

/-- A name goes through its own characters. -/
theorem nameChars_append {word : List Char} (hw : ∀ c ∈ word, isNameChar c = true) (behind : List Char) :
    nameChars (word ++ behind) = (nameChars behind).behind word.length (word ++ ·) := by
  induction word with
  | nil => simp [Scan.behind]
  | cons c word ih =>
      rw [List.cons_append, nameChars, if_pos (hw c List.mem_cons_self), ih fun d hd => hw d (List.mem_cons_of_mem _ hd)]
      simp only [Scan.behind, List.length_cons, List.cons_append, Scan.mk.injEq, true_and]
      omega

/-- A word is read as a name up to the character that stops it. -/
theorem nameChars_word {word rest : List Char} (hw : ∀ c ∈ word, isWordChar c = true) (hr : StopsAt extendsName rest) :
    nameChars (word ++ rest) = ⟨word, word.length⟩ := by
  rw [nameChars_append (fun c hc => isNameChar_of_isWordChar (hw c hc)), nameChars_of_stops hr]
  simp [Scan.behind]

theorem isLetter_iff {c : Char} :
    isLetter c = true ↔ (65 ≤ c.toNat ∧ c.toNat ≤ 90) ∨ (97 ≤ c.toNat ∧ c.toNat ≤ 122) ∨ c.toNat = 95 := by
  simp [isLetter, isAlpha_iff, char_eq_iff, or_assoc]

theorem isNameStart_of_isLetter {c : Char} (h : isLetter c = true) : isNameStart c = true := by
  rw [isLetter_iff] at h
  rw [isNameStart_iff]
  omega

theorem isWordChar_of_isLetter {c : Char} (h : isLetter c = true) : isWordChar c = true := by
  rw [isLetter_iff] at h
  rw [isWordChar_iff]
  omega

/-- How an identifier begins, and that all of it are characters of a word. -/
theorem isIdentifier_spec {word : List Char} (h : isIdentifier word = true) :
    (∀ c ∈ word, isWordChar c = true) ∧
      ((∃ c rest, word = c :: rest ∧ isLetter c = true) ∨
        ∃ c rest, word = '-' :: c :: rest ∧ (isLetter c = true ∨ c = '-')) := by
  unfold isIdentifier at h
  split at h
  · cases h
  · next rest =>
      obtain ⟨second, all⟩ := (Bool.and_eq_true _ _).mp h
      have chars := List.all_eq_true.mp all
      refine ⟨fun c hc => (List.mem_cons.mp hc).elim (fun e => by rw [e]; rfl) (chars c), .inr ?_⟩
      cases rest with
      | nil => cases second
      | cons c rest => exact ⟨c, rest, rfl, by simpa using second⟩
  · next c rest _ =>
      obtain ⟨first, all⟩ := (Bool.and_eq_true _ _).mp h
      refine ⟨fun d hd => (List.mem_cons.mp hd).elim (fun e => by rw [e]; exact isWordChar_of_isLetter first)
        (List.all_eq_true.mp all d), .inl ⟨c, rest, rfl, first⟩⟩

theorem startsIdent_identifier {word : List Char} (h : isIdentifier word = true) (rest : List Char) :
    startsIdent (word ++ rest) = true := by
  rcases (isIdentifier_spec h).2 with ⟨c, more, rfl, letter⟩ | ⟨c, more, rfl, second⟩
  · have dash : c ≠ '-' := by
      rintro rfl
      exact absurd letter (by decide)
    simp [startsIdent, dash, isNameStart_of_isLetter letter]
  · rcases second with letter | rfl
    · simp [startsIdent, isNameStart_of_isLetter letter]
    · simp [startsIdent]

theorem name_word {word rest : List Char} (hw : ∀ c ∈ word, isWordChar c = true) (hne : word ≠ [])
    (hr : StopsAt extendsName rest) (role : NameRole) (pos : Nat) :
    name role pos (word ++ rest) = .ok ⟨String.ofList word, word.length⟩ := by
  simp [name, nameChars_word hw hr, hne, Scan.map]

theorem ident_identifier {word rest : List Char} (h : isIdentifier word = true) (hr : StopsAt extendsName rest)
    (role : NameRole) (pos : Nat) :
    ident role pos (word ++ rest) = .ok ⟨String.ofList word, word.length⟩ := by
  have hne : word ≠ [] := by rintro rfl; cases h
  unfold ident
  rw [if_pos (startsIdent_identifier h rest), name_word (isIdentifier_spec h).1 hne hr]

end StyleAudit.Selector
