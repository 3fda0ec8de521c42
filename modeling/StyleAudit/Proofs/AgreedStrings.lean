import StyleAudit.Proofs.AgreedNames
import StyleAudit.Proofs.LocalNames
/-!
Strings read twice. A string that the grammar of selectors accepts is a token, and ends at the same place. The grammar
takes the character behind a backslash as it is, while a token has the character that an escape stands for and no line end
behind a backslash. So the values differ where a hexadecimal digit or a line end is escaped, and nowhere else.
-/
namespace StyleAudit

open Text (Scan isHexDigit hexNumber charOfNumber)
open Selector (EscapeForm StopsAt)

/-- What stands between two quotes, with its value in a selector and its value as a token. -/
inductive StringForm (quote : Char) : List Char → List Char → List Char → Prop
  | closed : StringForm quote [] [] []
  | char {c : Char} {body plain decoded : List Char} : c ≠ quote → c ≠ '\\' → c ≠ '\n' →
      StringForm quote body plain decoded → StringForm quote (c :: body) (c :: plain) (c :: decoded)
  | line {body plain decoded : List Char} : StringForm quote body plain decoded →
      StringForm quote ('\\' :: '\n' :: body) ('\n' :: plain) decoded
  | escape {c d : Char} {piece body plain decoded : List Char} : d ≠ '\n' → EscapeForm c (d :: piece) body →
      StringForm quote body plain decoded →
      StringForm quote ('\\' :: d :: (piece ++ body)) (d :: (piece ++ plain)) (c :: decoded)

/-- The characters that stand behind a backslash, in order. A backslash that is one of them escapes nothing itself. -/
def escapedChars : List Char → List Char
  | '\\' :: c :: rest => c :: escapedChars rest
  | _ :: rest => escapedChars rest
  | [] => []

/-! Escapes in front of the end of a string. -/

/-- A character that belongs to no escape, so that it ends a string wherever it is not escaped itself. -/
structure IsQuote (quote : Char) : Prop where
  hex : isHexDigit quote = false
  space : Selector.isSpace quote = false
  slash : quote ≠ '\\'

theorem IsQuote.other {quote c : Char} (h : IsQuote quote) (hc : isHexDigit c = true ∨ Selector.isSpace c = true) :
    c ≠ quote ∧ c ≠ '\\' := by
  constructor
  · rintro rfl
    rw [h.hex, h.space] at hc
    simp at hc
  · rintro rfl
    exact absurd hc (by decide)

theorem isQuote_of_mark {quote : Char} (h : quote = '"' ∨ quote = '\'') : IsQuote quote := by
  rcases h with rfl | rfl <;> exact ⟨by decide, by decide, by decide⟩

/-- An escape is its first character, with digits and white space behind it that belong to it. -/
theorem exists_escapeForm (d : Char) (text : List Char) : ∃ piece behind, text = piece ++ behind ∧
    EscapeForm (Selector.escaped (d :: text)).value (d :: piece) behind ∧
      ∀ e ∈ piece, isHexDigit e = true ∨ Selector.isSpace e = true := by
  obtain ⟨front, behind, same, form, -⟩ := Selector.escaped_form (List.cons_ne_nil d text)
  generalize (Selector.escaped (d :: text)).value = c at form ⊢
  cases form with
  | plain hex =>
      obtain ⟨rfl, rfl⟩ := List.cons.inj same
      exact ⟨[], text, rfl, .plain hex, nofun⟩
  | @spaced digits space _ some all size blank =>
      cases digits with
      | nil => exact absurd rfl some
      | cons e digits =>
          obtain ⟨rfl, rfl⟩ := List.cons.inj same
          refine ⟨digits ++ [space], behind, rfl, .spaced some all size blank, fun e mem => ?_⟩
          rcases List.mem_append.mp mem with digit | last
          · exact .inl (all e (List.mem_cons_of_mem _ digit))
          · exact .inr (List.mem_singleton.mp last ▸ blank)
  | digits some all size stops blank =>
      cases front with
      | nil => exact absurd rfl some
      | cons e digits =>
          obtain ⟨rfl, rfl⟩ := List.cons.inj same
          exact ⟨digits, behind, rfl, .digits some all size stops blank,
            fun e mem => .inl (all e (List.mem_cons_of_mem _ mem))⟩

/-- The characters of an escape behind the first one are read by the grammar as they are. -/
theorem string_behind {quote : Char} {piece behind : List Char} {pos : Nat} {s : Scan (List Char)}
    (hp : ∀ c ∈ piece, c ≠ quote ∧ c ≠ '\\') (h : Selector.string quote pos (piece ++ behind) = .ok s) :
    ∃ more, Selector.string quote (pos + piece.length) behind = .ok more ∧
      s = more.behind piece.length (piece ++ ·) := by
  induction piece generalizing pos s with
  | nil => exact ⟨s, h, by simp [Scan.behind]⟩
  | cons c piece ih =>
      obtain ⟨⟨open_, slash⟩, tail⟩ := List.forall_mem_cons.mp hp
      rw [List.cons_append, Selector.string.eq_def] at h
      dsimp only at h
      rw [if_neg open_, if_neg slash] at h
      split at h
      · cases h
      · obtain ⟨rest, read, rfl⟩ := Selector.map_eq_ok h
        obtain ⟨more, found, rfl⟩ := ih tail read
        refine ⟨more, ?_, ?_⟩
        · rw [List.length_cons, Nat.add_comm piece.length, ← Nat.add_assoc]
          exact found
        · simp only [Scan.behind, List.length_cons, List.cons_append, Scan.mk.injEq, true_and]
          omega

/-! Strings. -/

/-- A text begins with a string and the quote behind it, which the grammar has read. -/
def BeginsString (quote : Char) (text : List Char) (s : Scan (List Char)) : Prop :=
  ∃ body rest decoded, text = body ++ quote :: rest ∧ s.size = body.length + 1 ∧ StringForm quote body s.value decoded

namespace BeginsString

variable {quote : Char} {text : List Char} {s : Scan (List Char)}

theorem char {c : Char} (h : BeginsString quote text s) (open_ : c ≠ quote) (slash : c ≠ '\\') (line : c ≠ '\n') :
    BeginsString quote (c :: text) (s.behind 1 (c :: ·)) := by
  obtain ⟨body, rest, decoded, rfl, size, form⟩ := h
  refine ⟨c :: body, rest, c :: decoded, rfl, ?_, .char open_ slash line form⟩
  rw [Scan.behind_size, size, List.length_cons, Nat.add_comm]

theorem line (h : BeginsString quote text s) :
    BeginsString quote ('\\' :: '\n' :: text) (s.behind 2 ('\n' :: ·)) := by
  obtain ⟨body, rest, decoded, rfl, size, form⟩ := h
  refine ⟨'\\' :: '\n' :: body, rest, decoded, rfl, ?_, .line form⟩
  rw [Scan.behind_size, size, List.length_cons, List.length_cons, Nat.add_comm]

theorem escape {c d : Char} {piece : List Char} (h : BeginsString quote text s) (inline : d ≠ '\n')
    (form : EscapeForm c (d :: piece) text) :
    BeginsString quote ('\\' :: d :: (piece ++ text)) ((s.behind piece.length (piece ++ ·)).behind 2 (d :: ·)) := by
  obtain ⟨body, rest, decoded, rfl, size, inside⟩ := h
  refine ⟨'\\' :: d :: (piece ++ body), rest, c :: decoded, by simp, ?_, ?_⟩
  · simp only [Scan.behind_size, size, List.length_cons, List.length_append]
    omega
  · exact .escape inline (form.follows StopsAt.front StopsAt.front) inside

end BeginsString

section
variable {quote : Char} (hq : IsQuote quote)
include hq

/-- What the grammar accepts is a string with a form. -/
theorem string_form {text : List Char} {pos : Nat} {s : Scan (List Char)} (h : Selector.string quote pos text = .ok s) :
    BeginsString quote text s := by
  -- on the length, since an escape takes more than one character with it
  induction length : text.length using Nat.strong_induction_on generalizing pos text s with | _ length ih => ?_
  subst length
  cases text with
  | nil => cases h
  | cons c text =>
      rw [Selector.string.eq_def] at h
      dsimp only at h
      by_cases closing : c = quote
      · rw [if_pos closing] at h
        obtain rfl := Except.ok.inj h
        exact ⟨[], text, [], by rw [closing]; rfl, rfl, .closed⟩
      · rw [if_neg closing] at h
        by_cases slash : c = '\\'
        · rw [if_pos slash] at h
          cases text with
          | nil => cases h
          | cons d text =>
              obtain ⟨more, read, rfl⟩ := Selector.map_eq_ok h
              rw [slash]
              by_cases line : d = '\n'
              · subst line
                exact (ih _ (by simp) read rfl).line
              · obtain ⟨piece, behind, rfl, escape, own⟩ := exists_escapeForm d text
                obtain ⟨tail, found, rfl⟩ := string_behind (fun c mem => hq.other (own c mem)) read
                exact (ih _ (by simp; omega) found rfl).escape line escape
        · rw [if_neg slash] at h
          by_cases line : c = '\n'
          · rw [if_pos line] at h
            cases h
          · rw [if_neg line] at h
            obtain ⟨more, read, rfl⟩ := Selector.map_eq_ok h
            exact (ih _ (by simp) read rfl).char closing slash line

/-- A string with a form is a token in a normal text. -/
theorem StringForm.token {body plain decoded rest : List Char} (h : StringForm quote body plain decoded)
    (hn : IsNormal (body ++ quote :: rest)) :
    Css.string quote (body ++ quote :: rest) = ⟨some decoded, body.length + 1⟩ := by
  have inside : '\\' ≠ quote := hq.slash.symm
  induction h with
  | closed =>
      rw [List.nil_append, Css.string.eq_def]
      exact if_pos rfl
  | @char c body plain decoded open_ slash line _ ih =>
      have tail := ih (hn.drop 1)
      rw [List.cons_append, Css.string.eq_def]
      dsimp only
      rw [if_neg open_, if_neg line, if_neg slash, tail]
      simp [Scan.behind, Nat.add_comm]
  | @line body plain decoded _ ih =>
      have tail := ih (hn.drop 2)
      rw [List.cons_append, List.cons_append, Css.string.eq_def]
      dsimp only
      rw [if_neg inside, if_neg (by decide), if_pos rfl, if_pos rfl, tail]
      simp [Scan.behind]
      omega
  | @escape c d piece body plain decoded line form _ ih =>
      have normal : IsNormal (d :: (piece ++ (body ++ quote :: rest))) := by
        have behind := hn.drop 1
        rwa [List.cons_append, List.drop_one, List.tail_cons, List.cons_append, List.append_assoc] at behind
      have tail := ih (by simpa using normal.drop (piece.length + 1))
      have escaped : Css.escaped (d :: (piece ++ (body ++ quote :: rest))) = ⟨c, piece.length + 1⟩ := by
        rw [← normal.escaped]
        refine (form.follows (fun h => ?_) fun h => ?_).read
        · exact h.append (.cons hq.hex)
        · exact h.append (.cons hq.space)
      rw [List.cons_append, List.cons_append, List.append_assoc, Css.string.eq_def]
      dsimp only
      rw [if_neg inside, if_neg (by decide), if_pos rfl, if_neg line, escaped]
      dsimp only
      rw [List.drop_succ_cons, List.drop_left, tail]
      simp [Scan.behind]
      omega

end

/-! Values. -/

theorem escapedChars_cons {c : Char} (h : c ≠ '\\') (rest : List Char) :
    escapedChars (c :: rest) = escapedChars rest := by
  rw [escapedChars]
  rintro d more rfl
  exact absurd rfl h

/-- A digit does not stand for itself. -/
theorem charOfNumber_digit {d : Char} (h : isHexDigit d = true) : charOfNumber (hexNumber [d]) ≠ d := by
  have digit : d ∈ "0123456789abcdefABCDEF".toList := by
    simp only [isHexDigit, Bool.or_eq_true, Bool.and_eq_true, decide_eq_true_eq, Char.le_def, UInt32.le_iff_toNat_le,
      Selector.isDigit_iff] at h
    change (_ ∨ (97 ≤ d.toNat ∧ d.toNat ≤ 102)) ∨ (65 ≤ d.toNat ∧ d.toNat ≤ 70) at h
    simp [Selector.char_eq_iff]
    omega
  have other : ("0123456789abcdefABCDEF".toList.all fun d => charOfNumber (hexNumber [d]) != d) = true := by
    decide +kernel
  exact bne_iff_ne.mp (List.all_eq_true.mp other d digit)

/-- An escape of a character that is no digit stands for that. -/
theorem escapeForm_plain {c d : Char} {piece rest : List Char} (h : EscapeForm c (d :: piece) rest)
    (other : isHexDigit d = false) : c = d ∧ piece = [] := by
  have read := h.read
  rw [List.cons_append, Selector.escaped.eq_def, List.take_succ_cons, List.takeWhile_cons, other] at read
  obtain ⟨same, size⟩ := Scan.mk.inj read
  exact ⟨same.symm, List.length_eq_zero_iff.mp (Nat.succ.inj size).symm⟩

/-- An escape of a digit is not written as the character that it stands for. -/
theorem escapeForm_digit {c d : Char} {piece rest : List Char} (h : EscapeForm c (d :: piece) rest)
    (hex : isHexDigit d = true) : d :: piece ≠ [c] := by
  generalize written : d :: piece = text at h
  rintro rfl
  obtain ⟨rfl, -⟩ := List.cons.inj written
  generalize written : [d] = text at h
  cases h with
  | plain other => exact absurd hex (by rw [other]; exact Bool.false_ne_true)
  | @spaced digits space _ some =>
      have lengths := congrArg List.length written
      rw [List.length_append, List.length_singleton, List.length_singleton] at lengths
      exact some (List.length_eq_zero_iff.mp (by omega))
  | digits => exact charOfNumber_digit hex (by rw [written])

theorem exists_of_behind {α β : Type} {n : Scan α} {k size total : Nat} {f : α → β} {value : β}
    (h : n.behind k f = ⟨value, total⟩) (ht : total = k + size) : ∃ inner, n = ⟨inner, size⟩ ∧ value = f inner := by
  obtain ⟨inner, length⟩ := n
  obtain ⟨rfl, same⟩ := Scan.mk.inj h
  exact ⟨inner, congrArg (Scan.mk inner) (Nat.add_left_cancel (same.trans ht)), rfl⟩

namespace StringForm

variable {quote : Char} {body plain decoded : List Char}

/-- A token never has the longer value. -/
theorem length_le (h : StringForm quote body plain decoded) : decoded.length ≤ plain.length := by
  induction h with
  | closed => exact Nat.le_refl _
  | char _ _ _ _ ih => exact Nat.succ_le_succ ih
  | line _ ih => exact ih.trans (Nat.le_succ _)
  | escape _ _ _ ih =>
      simp only [List.length_cons, List.length_append]
      omega

/-- The values are the same just if no digit and no line end stands behind a backslash. -/
theorem eq_iff (h : StringForm quote body plain decoded) :
    plain = decoded ↔ ∀ c ∈ escapedChars body, isHexDigit c = false ∧ c ≠ '\n' := by
  induction h with
  | closed => exact iff_of_true rfl nofun
  | char _ slash _ _ ih => rw [List.cons_inj_right, escapedChars_cons slash, ih]
  | line more =>
      refine iff_of_false (fun same => ?_) fun none => (none '\n' List.mem_cons_self).2 rfl
      have longer := more.length_le
      rw [← same, List.length_cons] at longer
      omega
  | @escape c d piece body plain decoded line form more ih =>
      cases hex : isHexDigit d with
      | false =>
          obtain ⟨rfl, rfl⟩ := escapeForm_plain form hex
          rw [List.nil_append, List.cons_inj_right, ih]
          exact ⟨fun rest => List.forall_mem_cons.mpr ⟨⟨hex, line⟩, rest⟩, fun all => (List.forall_mem_cons.mp all).2⟩
      | true =>
          refine iff_of_false (fun same => ?_) fun none => ?_
          · have longer := more.length_le
            obtain ⟨first, rest⟩ := List.cons.inj same
            have piece : piece = [] := by
              rw [← rest, List.length_append] at longer
              exact List.length_eq_zero_iff.mp (by omega)
            exact escapeForm_digit form hex (by rw [first, piece])
          · have digit := (none d List.mem_cons_self).1
            rw [hex] at digit
            cases digit

/-- Where the string reads as a name, the value of the token is that name. -/
theorem eq_name (h : StringForm quote body plain decoded) {name : List Char}
    (whole : Selector.nameChars body = ⟨name, body.length⟩) : decoded = name := by
  induction h generalizing name with
  | closed =>
      rw [Selector.nameChars] at whole
      exact congrArg Scan.value whole
  | @char c body plain decoded _ slash _ _ ih =>
      have escape : Selector.startsEscape (c :: body) = false := by
        rw [Bool.eq_false_iff]
        exact fun starts => slash (Selector.startsEscape_cons starts).1
      rw [Selector.nameChars, escape] at whole
      split at whole
      · obtain ⟨value, read, rfl⟩ := exists_of_behind whole (Nat.add_comm _ _)
        rw [ih read]
      · cases congrArg Scan.size whole
  | line =>
      rw [Selector.nameChars] at whole
      cases congrArg Scan.size whole
  | @escape c d piece body plain decoded line form _ ih =>
      have starts : Selector.startsEscape ('\\' :: d :: (piece ++ body)) = true := bne_iff_ne.mpr line
      have read := form.read
      rw [List.cons_append] at read
      rw [Selector.nameChars, if_neg (by decide), if_pos starts, read] at whole
      dsimp only at whole
      rw [List.length_cons, List.drop_succ_cons, List.drop_left] at whole
      have size : ('\\' :: d :: (piece ++ body)).length = 1 + (piece.length + 1) + body.length := by
        simp only [List.length_cons, List.length_append]
        omega
      obtain ⟨value, tail, rfl⟩ := exists_of_behind whole size
      rw [ih tail]

end StringForm

/-- How a string that the grammar accepts is read as a token. -/
structure ReadsAsToken (quote : Char) (text : List Char) (s : Scan (List Char)) (value : List Char) : Prop where
  /-- It is a string, and ends at the same place. -/
  token : Css.stringToken quote text = ⟨.string (String.ofList value), 1 + s.size⟩
  /-- The value is the same just if no hexadecimal digit and no line end is escaped. -/
  same : s.value = value ↔ ∀ c ∈ escapedChars (text.take (s.size - 1)), isHexDigit c = false ∧ c ≠ '\n'
  /-- Where the grammar reads the string as a name, the value of the token is that name. -/
  name : ∀ name, Selector.nameChars (text.take (s.size - 1)) = ⟨name, s.size - 1⟩ → value = name

/-- In a normal source, a quoted string that the grammar of selectors accepts is a string token that ends at the same
place. The token resolves its escapes as in a name, and has the same value unless there are escapes to resolve. -/
theorem strings_agree (source : List Char) (start : Nat) (quote : Char) (text : List Char) (pos : Nat)
    (s : Scan (List Char)) (mark : quote = '"' ∨ quote = '\'')
    (here : (Css.normalize source).drop start = quote :: text) (accepted : Selector.string quote pos text = .ok s) :
    ∃ value, ReadsAsToken quote text s value := by
  have hq := isQuote_of_mark mark
  have normal : IsNormal text := by
    have behind := ((isNormal_normalize source).drop start).drop 1
    rwa [here, List.drop_one, List.tail_cons] at behind
  obtain ⟨body, rest, decoded, rfl, size, form⟩ := string_form hq accepted
  have inside : (body ++ quote :: rest).take (s.size - 1) = body := by
    rw [size, Nat.add_sub_cancel, List.take_left]
  refine ⟨decoded, ?_, ?_, ?_⟩
  · rw [Css.stringToken, form.token hq normal, size]
    rfl
  · rw [inside]
    exact form.eq_iff
  · rw [inside, size, Nat.add_sub_cancel]
    exact fun name => form.eq_name

/-- A string with an escaped quote and an escaped line end. -/
theorem strings_agree_line : ∃ s value,
    (Css.normalize "a'\\'b\\\r\nc' d".toList).drop 1 = '\'' :: "\\'b\\\nc' d".toList ∧
      Selector.string '\'' 0 "\\'b\\\nc' d".toList = .ok s ∧ ReadsAsToken '\'' "\\'b\\\nc' d".toList s value ∧
        s.value = "'b\nc".toList ∧ s.size = 7 := by
  have here : (Css.normalize "a'\\'b\\\r\nc' d".toList).drop 1 = '\'' :: "\\'b\\\nc' d".toList := by decide +kernel
  have accepted : Selector.string '\'' 0 "\\'b\\\nc' d".toList = .ok ⟨"'b\nc".toList, 7⟩ := by cbv
  obtain ⟨value, reads⟩ := strings_agree _ 1 '\'' _ 0 _ (.inr rfl) here accepted
  exact ⟨_, value, here, accepted, reads, rfl, rfl⟩

/-- An escape in hexadecimal digits is resolved in a token and in a name, and not in a quoted string. -/
theorem strings_differ : Css.normalize "\"\\41\"".toList = '"' :: "\\41\"".toList ∧
    Selector.string '"' 0 "\\41\"".toList = .ok ⟨"41".toList, 4⟩ ∧
      Css.stringToken '"' "\\41\"".toList = ⟨.string "A", 5⟩ ∧ Selector.nameChars "\\41".toList = ⟨['A'], 3⟩ := by
  have accepted : Selector.string '"' 0 "\\41\"".toList = .ok ⟨"41".toList, 4⟩ := by cbv
  exact ⟨by decide +kernel, accepted, by decide +kernel, by decide +kernel⟩

end StyleAudit
