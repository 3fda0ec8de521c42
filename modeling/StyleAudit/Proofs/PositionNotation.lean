import Mathlib.Data.List.TakeWhile
import StyleAudit.Proofs.SelectorWords
/-!
The An+B notation of positions, told by its parts. An argument is read as a position where it is a piece of the notation
once its white space is taken out; so every piece of the notation is read as what it denotes, and what else is read has
white space in places where the notation has none.
-/
namespace StyleAudit.Selector

/-! The notation. -/

/-- At most one sign, and the factor that it stands for. -/
inductive IsSign : List Char → Int → Prop
  | none : IsSign [] 1
  | plus : IsSign ['+'] 1
  | minus : IsSign ['-'] (-1)

def IsDigits (digits : List Char) : Prop := digits ≠ [] ∧ ∀ c ∈ digits, c.isDigit = true

/-- An integer, with or without a sign. -/
inductive IsNumeral : List Char → Int → Prop
  | signed {sign digits : List Char} {factor : Int} : IsSign sign factor → IsDigits digits →
      IsNumeral (sign ++ digits) (factor * Decimal.ofDigits digits)

/-- What stands in front of an n. -/
inductive IsStep : List Char → Int → Prop
  | sign {sign : List Char} {factor : Int} : IsSign sign factor → IsStep sign factor
  | numeral {text : List Char} {n : Int} : IsNumeral text n → IsStep text n

/-- What stands behind an n: nothing, or a sign and digits, with white space before and behind the sign. -/
inductive IsOffset : List Char → Int → Prop
  | none : IsOffset [] 0
  | signed {before behind digits : List Char} {c : Char} {factor : Int} : IsBlank before → IsSign [c] factor →
      IsBlank behind → IsDigits digits →
      IsOffset (before ++ c :: (behind ++ digits)) (factor * Decimal.ofDigits digits)

/-- The notation in lower case, without white space around it. -/
inductive Denotes : List Char → Position → Prop
  | odd : Denotes "odd".toList ⟨2, 1⟩
  | even : Denotes "even".toList ⟨2, 0⟩
  | stepped {front behind : List Char} {step offset : Int} : IsStep front step → IsOffset behind offset →
      Denotes (front ++ 'n' :: behind) ⟨step, offset⟩
  | numeral {text : List Char} {n : Int} : IsNumeral text n → Denotes text ⟨0, n⟩

/-- A position with parts of 32 bits that a text denotes; a plain zero is none. -/
structure Admits (text : List Char) (p : Position) : Prop where
  denotes : Denotes text p
  step : fits p.step = true
  offset : fits p.offset = true
  nonzero : ¬ IsNumeral text 0

/-- An argument is a piece of the notation, letter case and white space around it left aside. -/
def States (argument : List Char) (p : Position) : Prop :=
  ∃ before text behind, argument.map Char.toLower = before ++ (text ++ behind) ∧ IsBlank before ∧ IsBlank behind ∧
    Admits text p

/-- A text without white space. -/
def IsSolid (text : List Char) : Prop := ∀ c ∈ text, isSpace c = false

instance (text : List Char) : Decidable (IsSolid text) :=
  decidable_of_iff (text.all (!isSpace ·) = true) (by simp [IsSolid])

/-- White space stands at the ends of a text in lower case, and else only before and behind one sign that follows an n. -/
inductive IsWellSpaced : List Char → Prop
  | solid {before text behind : List Char} : IsBlank before → IsBlank behind → IsSolid text →
      IsWellSpaced (before ++ (text ++ behind))
  | around {before front gap gap' back behind : List Char} {sign : Char} : IsBlank before → IsBlank behind →
      IsSolid front → IsBlank gap → sign = '+' ∨ sign = '-' → IsBlank gap' → IsSolid back →
      IsWellSpaced (before ++ (front ++ 'n' :: (gap ++ sign :: (gap' ++ (back ++ behind)))))

/-! The characters of the notation. -/

theorem IsSign.chars {sign : List Char} {factor : Int} (h : IsSign sign factor) : ∀ c ∈ sign, c = '+' ∨ c = '-' := by
  cases h <;> simp

theorem IsNumeral.chars {text : List Char} {n : Int} (h : IsNumeral text n) :
    ∀ c ∈ text, c.isDigit = true ∨ c = '+' ∨ c = '-' := by
  obtain ⟨sign, digits⟩ := h
  exact List.forall_mem_append.mpr ⟨fun c hc => .inr (sign.chars c hc), fun c hc => .inl (digits.2 c hc)⟩

theorem IsStep.chars {text : List Char} {n : Int} (h : IsStep text n) :
    ∀ c ∈ text, c.isDigit = true ∨ c = '+' ∨ c = '-' := by
  cases h with
  | sign sign => exact fun c hc => .inr (sign.chars c hc)
  | numeral numeral => exact numeral.chars

theorem IsOffset.chars {text : List Char} {n : Int} (h : IsOffset text n) :
    ∀ c ∈ text, isSpace c = true ∨ c.isDigit = true ∨ c = '+' ∨ c = '-' := by
  cases h with
  | none => simp
  | signed before sign behind digits =>
      refine List.forall_mem_append.mpr ⟨fun c hc => .inl (before c hc), List.forall_mem_cons.mpr ⟨?_, ?_⟩⟩
      · exact .inr (.inr (sign.chars _ (List.mem_singleton_self _)))
      · exact List.forall_mem_append.mpr ⟨fun c hc => .inl (behind c hc), fun c hc => .inr (.inl (digits.2 c hc))⟩

/-- Digits and signs are no letters. -/
theorem not_mem_of_chars {text : List Char} {c : Char}
    (chars : ∀ d ∈ text, isSpace d = true ∨ d.isDigit = true ∨ d = '+' ∨ d = '-') (letter : c.isAlpha = true) : c ∉ text := by
  intro mem
  have other := chars c mem
  rw [isAlpha_iff] at letter
  rw [isSpace_iff, isDigit_iff, char_eq_iff, char_eq_iff] at other
  change _ ∨ _ ∨ c.toNat = 43 ∨ c.toNat = 45 at other
  omega

theorem IsStep.no_letter {text : List Char} {n : Int} (h : IsStep text n) {c : Char} (letter : c.isAlpha = true) :
    c ∉ text :=
  not_mem_of_chars (fun d hd => .inr (h.chars d hd)) letter

theorem IsNumeral.no_letter {text : List Char} {n : Int} (h : IsNumeral text n) {c : Char} (letter : c.isAlpha = true) :
    c ∉ text :=
  not_mem_of_chars (fun d hd => .inr (h.chars d hd)) letter

theorem IsOffset.no_letter {text : List Char} {n : Int} (h : IsOffset text n) {c : Char} (letter : c.isAlpha = true) :
    c ∉ text :=
  not_mem_of_chars h.chars letter

theorem isSolid_of_chars {text : List Char} (h : ∀ c ∈ text, c.isDigit = true ∨ c = '+' ∨ c = '-') : IsSolid text := by
  intro c hc
  have other := h c hc
  rw [isDigit_iff, char_eq_iff, char_eq_iff] at other
  change _ ∨ c.toNat = 43 ∨ c.toNat = 45 at other
  rw [Bool.eq_false_iff, ne_eq, isSpace_iff]
  omega

theorem IsStep.isSolid {text : List Char} {n : Int} (h : IsStep text n) : IsSolid text := isSolid_of_chars h.chars

theorem IsNumeral.isSolid {text : List Char} {n : Int} (h : IsNumeral text n) : IsSolid text := isSolid_of_chars h.chars

theorem IsDigits.isSolid {digits : List Char} (h : IsDigits digits) : IsSolid digits :=
  isSolid_of_chars fun c hc => .inl (h.2 c hc)

/-! The readers of the parts. -/

theorem fits_zero : fits 0 = true := by decide

/-- Digits with at most one sign before them denote a number, if it fits. -/
theorem integer?_signed {sign digits : List Char} {factor : Int} (hs : IsSign sign factor) (hd : IsDigits digits) :
    integer? (sign ++ digits) =
      if fits (factor * Decimal.ofDigits digits) then some (factor * Decimal.ofDigits digits) else none := by
  have all : digits ≠ [] ∧ digits.all Char.isDigit = true := ⟨hd.1, List.all_eq_true.mpr hd.2⟩
  cases hs with
  | none =>
      obtain ⟨c, rest, rfl⟩ := List.exists_cons_of_ne_nil hd.1
      have first := isDigit_iff.mp (hd.2 c List.mem_cons_self)
      have minus : c ≠ '-' := by rintro rfl; simp at first
      have plus : c ≠ '+' := by rintro rfl; simp at first
      rw [List.nil_append, one_mul]
      unfold integer?
      split
      next negative digits same =>
        split at same
        · next again => exact absurd (List.cons.inj again).1 minus
        · next again => exact absurd (List.cons.inj again).1 plus
        · obtain ⟨rfl, rfl⟩ := Prod.mk.inj same
          rw [if_pos all]
          rfl
  | plus =>
      rw [List.singleton_append, one_mul]
      simp only [integer?, if_pos all]
      rfl
  | minus =>
      rw [List.singleton_append, neg_one_mul]
      simp only [integer?, if_pos all]
      rfl

theorem integer?_eq_some_iff {text : List Char} {n : Int} :
    integer? text = some n ↔ IsNumeral text n ∧ fits n = true := by
  constructor
  · intro h
    -- the digits, and what stands before them
    have found : ∃ sign digits factor, text = sign ++ digits ∧ IsSign sign factor ∧ IsDigits digits := by
      unfold integer? at h
      split at h
      next negative digits same =>
        split at h
        · next all =>
            have digits : IsDigits digits := ⟨all.1, List.all_eq_true.mp all.2⟩
            split at same
            · obtain ⟨-, rfl⟩ := Prod.mk.inj same
              exact ⟨['-'], _, _, rfl, .minus, digits⟩
            · obtain ⟨-, rfl⟩ := Prod.mk.inj same
              exact ⟨['+'], _, _, rfl, .plus, digits⟩
            · obtain ⟨-, rfl⟩ := Prod.mk.inj same
              exact ⟨[], _, _, rfl, .none, digits⟩
        · cases h
    obtain ⟨sign, digits, factor, rfl, hs, hd⟩ := found
    rw [integer?_signed hs hd] at h
    split at h
    · next fit =>
        obtain rfl := Option.some.inj h
        exact ⟨.signed hs hd, fit⟩
    · cases h
  · rintro ⟨⟨hs, hd⟩, fit⟩
    rw [integer?_signed hs hd, if_pos fit]

theorem IsNumeral.not_sign {text : List Char} {n : Int} (h : IsNumeral text n) : ∀ factor, ¬ IsSign text factor := by
  obtain ⟨-, digits⟩ := h
  intro factor sign
  obtain ⟨c, rest, rfl⟩ := List.exists_cons_of_ne_nil digits.1
  have digit := digits.2 c List.mem_cons_self
  rcases sign.chars c (by simp) with rfl | rfl <;> exact absurd digit (by decide)

theorem step?_eq_some_iff {text : List Char} {n : Int} : step? text = some n ↔ IsStep text n ∧ fits n = true := by
  constructor
  · intro h
    unfold step? at h
    split at h
    · obtain rfl := Option.some.inj h
      exact ⟨.sign .none, by decide⟩
    · obtain rfl := Option.some.inj h
      exact ⟨.sign .plus, by decide⟩
    · obtain rfl := Option.some.inj h
      exact ⟨.sign .minus, by decide⟩
    · obtain ⟨numeral, fit⟩ := integer?_eq_some_iff.mp h
      exact ⟨.numeral numeral, fit⟩
  · rintro ⟨step, fit⟩
    cases step with
    | sign sign => cases sign <;> rfl
    | numeral numeral =>
        have other := numeral.not_sign
        unfold step?
        split
        · exact absurd .none (other 1)
        · exact absurd .plus (other 1)
        · exact absurd .minus (other (-1))
        · exact integer?_eq_some_iff.mpr ⟨numeral, fit⟩

theorem eq_nil_of_solid {blank text : List Char} (hb : IsBlank blank) (hs : IsSolid (blank ++ text)) : blank = [] := by
  cases blank with
  | nil => rfl
  | cons c blank =>
      have space := hb c List.mem_cons_self
      rw [hs c (by simp)] at space
      cases space

theorem IsSolid.behind {front text : List Char} (h : IsSolid (front ++ text)) : IsSolid text :=
  fun c hc => h c (List.mem_append_right front hc)

theorem IsSolid.before {front text : List Char} (h : IsSolid (front ++ text)) : IsSolid front :=
  fun c hc => h c (List.mem_append_left text hc)

theorem IsSolid.tail {c : Char} {text : List Char} (h : IsSolid (c :: text)) : IsSolid text :=
  fun d hd => h d (List.mem_cons_of_mem c hd)

/-- Without white space an offset is a sign with digits directly behind it. -/
theorem offset?_eq_some_iff {text : List Char} (solid : IsSolid text) {n : Int} :
    offset? text = some n ↔ IsOffset text n ∧ fits n = true := by
  constructor
  · intro h
    unfold offset? at h
    split at h
    · obtain rfl := Option.some.inj h
      exact ⟨.none, by decide⟩
    · next c rest =>
        split at h
        · next mark =>
            obtain ⟨numeral, fit⟩ := integer?_eq_some_iff.mp h
            refine ⟨?_, fit⟩
            generalize same : c :: rest = text at numeral
            obtain ⟨sign, digits⟩ := numeral
            cases sign with
            | none =>
                rw [List.nil_append] at same
                have digit := digits.2 c (same ▸ List.mem_cons_self)
                rcases mark with rfl | rfl <;> exact absurd digit (by decide)
            | plus => exact .signed .nil .plus .nil digits
            | minus => exact .signed .nil .minus .nil digits
        · cases h
  · rintro ⟨offset, fit⟩
    cases offset with
    | none => rfl
    | signed before sign behind digits =>
        obtain rfl := eq_nil_of_solid before solid
        obtain rfl := eq_nil_of_solid behind solid.tail
        rw [List.nil_append, List.nil_append, offset?, if_pos (sign.chars _ (List.mem_singleton_self _))]
        exact integer?_eq_some_iff.mpr ⟨.signed sign digits, fit⟩

/-! Arguments. -/

/-- A text without its white space. -/
def squeezed (text : List Char) : List Char := text.filter (!isSpace ·)

/-- An argument without its white space, in lower case. -/
def compact (argument : List Char) : List Char := (argument.filter (!isSpace ·)).map Char.toLower

theorem isSpace_toLower (c : Char) : isSpace c.toLower = isSpace c := by
  by_cases upper : 65 ≤ c.toNat ∧ c.toNat ≤ 90
  · have lower := toNat_toLower upper
    rw [Bool.eq_iff_iff, isSpace_iff, isSpace_iff]
    omega
  · rw [toLower_eq_self upper]

theorem compact_eq_squeezed (argument : List Char) : compact argument = squeezed (argument.map Char.toLower) := by
  rw [compact, squeezed, List.filter_map]
  congr 1
  exact List.filter_congr fun c _ => by rw [Function.comp_apply, isSpace_toLower]

theorem isSolid_compact (argument : List Char) : IsSolid (compact argument) := by
  intro c hc
  rw [compact_eq_squeezed, squeezed, List.mem_filter] at hc
  simpa using hc.2

/-- What is read of an argument: its two words, what stands before its first n and behind it, or its number. -/
theorem read_eq (argument : List Char) :
    Position.read argument =
      let malformed := Fault.malformedPosition (String.ofList (Text.trim argument))
      if compact argument = "odd".toList then .ok ⟨2, 1⟩
      else if compact argument = "even".toList then .ok ⟨2, 0⟩
      else match (compact argument).dropWhile (· ≠ 'n') with
        | _ :: behind =>
          match step? ((compact argument).takeWhile (· ≠ 'n')), offset? behind with
          | some step, some offset => .ok ⟨step, offset⟩
          | _, _ => .error malformed
        | [] =>
          match integer? (compact argument) with
          | none => .error malformed
          | some 0 => .error .positionZero
          | some offset => .ok ⟨0, offset⟩ := rfl

theorem admits_of_read {argument : List Char} {p : Position} (h : Position.read argument = .ok p) :
    Admits (compact argument) p := by
  have solid := isSolid_compact argument
  rw [read_eq] at h
  generalize compact argument = word at h solid ⊢
  have lettered {c : Char} (mem : c ∈ word) (letter : c.isAlpha = true) : ¬ IsNumeral word 0 :=
    fun zero => zero.no_letter letter mem
  dsimp only at h
  split at h
  · next odd =>
      obtain rfl := Except.ok.inj h
      refine ⟨by rw [odd]; exact .odd, by decide, by decide, lettered (c := 'o') ?_ (by decide)⟩
      rw [odd]
      decide
  · split at h
    · next even =>
        obtain rfl := Except.ok.inj h
        refine ⟨by rw [even]; exact .even, by decide, by decide, lettered (c := 'e') ?_ (by decide)⟩
        rw [even]
        decide
    · have whole : word.takeWhile (· ≠ 'n') ++ word.dropWhile (· ≠ 'n') = word := List.takeWhile_append_dropWhile
      split at h
      · next c behind found =>
          have mark : c = 'n' := by
            have first := List.head?_dropWhile_not (fun c => decide (c ≠ 'n')) word
            rw [found] at first
            simpa using first
          subst mark
          rw [found] at whole
          split at h
          · next step offset stepped shifted =>
              obtain rfl := Except.ok.inj h
              rw [← whole] at solid
              obtain ⟨isStep, fitStep⟩ := step?_eq_some_iff.mp stepped
              obtain ⟨isOffset, fitOffset⟩ := (offset?_eq_some_iff solid.behind.tail).mp shifted
              refine ⟨?_, fitStep, fitOffset, lettered (c := 'n') ?_ (by decide)⟩
              · rw [← whole]
                exact .stepped isStep isOffset
              · rw [← whole]
                exact List.mem_append_right _ List.mem_cons_self
          · cases h
      · split at h
        · cases h
        · cases h
        · next offset other found =>
            obtain rfl := Except.ok.inj h
            obtain ⟨numeral, fit⟩ := integer?_eq_some_iff.mp found
            refine ⟨.numeral numeral, fits_zero, fit, fun zero => other ?_⟩
            rw [integer?_eq_some_iff.mpr ⟨zero, fits_zero⟩] at found
            exact (Option.some.inj found).symm

theorem read_of_admits {argument : List Char} {p : Position} (h : Admits (compact argument) p) :
    Position.read argument = .ok p := by
  have solid := isSolid_compact argument
  rw [read_eq]
  generalize compact argument = word at h solid ⊢
  obtain ⟨denotes, fitStep, fitOffset, nonzero⟩ := h
  dsimp only
  cases denotes with
  | odd => rfl
  | even => rfl
  | @stepped front behind step offset isStep isOffset =>
      have ahead : ∀ c ∈ front, decide (c ≠ 'n') = true := by
        intro c hc
        rw [decide_eq_true_eq]
        rintro rfl
        exact isStep.no_letter (by decide) hc
      -- neither word has an n with digits and signs alone around it
      have odd : front ++ 'n' :: behind ≠ "odd".toList := by
        intro same
        have mem : 'n' ∈ "odd".toList := same ▸ List.mem_append_right front List.mem_cons_self
        exact absurd mem (by decide)
      have even : front ++ 'n' :: behind ≠ "even".toList := by
        intro same
        have mem : 'e' ∈ front ++ 'n' :: behind := same ▸ List.mem_cons_self
        rcases List.mem_append.mp mem with mem | mem
        · exact isStep.no_letter (by decide) mem
        · exact isOffset.no_letter (by decide) ((List.mem_cons.mp mem).resolve_left (by decide))
      rw [if_neg odd, if_neg even, List.dropWhile_append_of_pos ahead, List.takeWhile_append_of_pos ahead]
      simp [step?_eq_some_iff.mpr ⟨isStep, fitStep⟩,
        (offset?_eq_some_iff solid.behind.tail).mpr ⟨isOffset, fitOffset⟩]
  | @numeral _ n numeral =>
      have absent (c : Char) (letter : c.isAlpha = true) : c ∉ word := numeral.no_letter letter
      have odd : word ≠ "odd".toList := by
        rintro rfl
        exact absent 'o' (by decide) (by decide)
      have even : word ≠ "even".toList := by
        rintro rfl
        exact absent 'e' (by decide) (by decide)
      have none : word.dropWhile (· ≠ 'n') = [] := by
        rw [List.dropWhile_eq_nil_iff]
        intro c hc
        rw [decide_eq_true_eq]
        rintro rfl
        exact absent 'n' (by decide) hc
      have other : n ≠ 0 := by
        rintro rfl
        exact nonzero numeral
      rw [if_neg odd, if_neg even, none, integer?_eq_some_iff.mpr ⟨numeral, fitOffset⟩]
      dsimp only
      split
      · next found => cases found
      · next found => exact absurd (Option.some.inj found) other
      · next found => rw [Option.some.inj found]

/-- What is read is what the argument denotes without its white space. -/
theorem read_eq_ok_iff {argument : List Char} {p : Position} :
    Position.read argument = .ok p ↔ Admits (compact argument) p := ⟨admits_of_read, read_of_admits⟩

/-! White space in an argument. -/

theorem squeezed_append (front behind : List Char) : squeezed (front ++ behind) = squeezed front ++ squeezed behind :=
  List.filter_append ..

theorem squeezed_cons {c : Char} (h : isSpace c = false) (text : List Char) :
    squeezed (c :: text) = c :: squeezed text := by
  rw [squeezed, List.filter_cons_of_pos (by simp [h])]
  rfl

theorem IsBlank.squeezed {text : List Char} (h : IsBlank text) : squeezed text = [] := by
  rw [Selector.squeezed, List.filter_eq_nil_iff]
  intro c hc
  simp [h c hc]

theorem IsSolid.squeezed {text : List Char} (h : IsSolid text) : squeezed text = text := by
  rw [Selector.squeezed, List.filter_eq_self]
  intro c hc
  simp [h c hc]

theorem IsOffset.squeezed {text : List Char} {n : Int} (h : IsOffset text n) : IsOffset (squeezed text) n := by
  cases h with
  | none => exact .none
  | @signed before behind digits c factor hb hs hr hd =>
      have mark : isSpace c = false := (isSolid_of_chars fun d hd => .inr (hs.chars d hd)) c (List.mem_singleton_self c)
      rw [squeezed_append, squeezed_cons mark, squeezed_append, hb.squeezed, hr.squeezed, hd.isSolid.squeezed]
      exact .signed .nil hs .nil hd

theorem isSolid_of_all {text : List Char} (h : text.all (!isSpace ·) = true) : IsSolid text := by
  intro c hc
  simpa using List.all_eq_true.mp h c hc

/-- A piece of the notation denotes the same without its white space. -/
theorem Denotes.squeezed {text : List Char} {p : Position} (h : Denotes text p) : Denotes (squeezed text) p := by
  cases h with
  | odd => exact .odd
  | even => exact .even
  | stepped step offset =>
      rw [squeezed_append, squeezed_cons (by decide), step.isSolid.squeezed]
      exact .stepped step offset.squeezed
  | numeral numeral =>
      rw [numeral.isSolid.squeezed]
      exact .numeral numeral

/-- White space stands in a piece of the notation only where an offset has it. -/
theorem Denotes.isWellSpaced {text : List Char} {p : Position} (h : Denotes text p) {before behind : List Char}
    (hb : IsBlank before) (hr : IsBlank behind) : IsWellSpaced (before ++ (text ++ behind)) := by
  cases h with
  | odd => exact .solid hb hr (isSolid_of_all (by decide))
  | even => exact .solid hb hr (isSolid_of_all (by decide))
  | numeral numeral => exact .solid hb hr numeral.isSolid
  | @stepped front _ _ _ step offset =>
      cases offset with
      | none =>
          refine .solid hb hr (List.forall_mem_append.mpr ⟨step.isSolid, ?_⟩)
          exact isSolid_of_all (by decide)
      | signed gap sign gap' digits =>
          have spaced := IsWellSpaced.around hb hr step.isSolid gap (sign.chars _ (List.mem_singleton_self _)) gap'
            digits.isSolid
          simpa only [List.append_assoc, List.cons_append] using spaced

theorem IsOffset.spaced {sign : Char} {back : List Char} {n : Int} (h : IsOffset (sign :: back) n)
    (solid : IsSolid (sign :: back)) {gap gap' : List Char} (hg : IsBlank gap) (hg' : IsBlank gap') :
    IsOffset (gap ++ sign :: (gap' ++ back)) n := by
  generalize same : sign :: back = text at h solid
  cases h with
  | none => cases same
  | signed hb hs hr hd =>
      obtain rfl := eq_nil_of_solid hb solid
      obtain rfl := eq_nil_of_solid hr solid.tail
      obtain ⟨rfl, rfl⟩ := List.cons.inj same
      exact .signed hg hs hg' hd

/-- White space may be put on both sides of a sign that follows an n. -/
theorem Denotes.spaced {front back : List Char} {sign : Char} {p : Position}
    (h : Denotes (front ++ 'n' :: sign :: back) p) (mark : sign = '+' ∨ sign = '-') (solid : IsSolid back)
    {gap gap' : List Char} (hg : IsBlank gap) (hg' : IsBlank gap') :
    Denotes (front ++ 'n' :: (gap ++ sign :: (gap' ++ back))) p := by
  have letter : 'n' ∈ front ++ 'n' :: sign :: back := List.mem_append_right front List.mem_cons_self
  have signed : sign ∈ front ++ 'n' :: sign :: back := by simp
  generalize same : front ++ 'n' :: sign :: back = text at h letter signed
  cases h with
  | odd => exact absurd letter (by decide)
  | even => rcases mark with rfl | rfl <;> exact absurd signed (by decide)
  | numeral numeral => exact absurd letter (numeral.no_letter (by decide))
  | stepped step offset =>
      have outer := offset.no_letter (c := 'n') (by decide)
      obtain ⟨rfl, -, rfl⟩ := (List.append_cons_inj_of_notMem (step.no_letter (by decide)) outer).mp same.symm
      have visible : isSpace sign = false := by rcases mark with rfl | rfl <;> decide
      exact .stepped step (offset.spaced (List.forall_mem_cons.mpr ⟨visible, solid⟩) hg hg')

theorem isSpace_of_isAlpha {c : Char} (h : c.isAlpha = true) : isSpace c = false := by
  rw [isAlpha_iff] at h
  rw [Bool.eq_false_iff, ne_eq, isSpace_iff]
  omega

theorem Denotes.letter_or_numeral {text : List Char} {p : Position} (h : Denotes text p) :
    (∃ c ∈ text, c.isAlpha = true) ∨ IsNumeral text p.offset := by
  cases h with
  | odd => exact .inl ⟨'o', by decide, by decide⟩
  | even => exact .inl ⟨'e', by decide, by decide⟩
  | stepped => exact .inl ⟨'n', List.mem_append_right _ List.mem_cons_self, by decide⟩
  | numeral numeral => exact .inr numeral

theorem Admits.squeezed {text : List Char} {p : Position} (h : Admits text p) : Admits (squeezed text) p := by
  refine ⟨h.denotes.squeezed, h.step, h.offset, fun zero => ?_⟩
  rcases h.denotes.letter_or_numeral with ⟨c, mem, letter⟩ | numeral
  · refine zero.no_letter letter (List.mem_filter.mpr ⟨mem, ?_⟩)
    rw [isSpace_of_isAlpha letter]
    rfl
  · rw [numeral.isSolid.squeezed] at zero
    exact h.nonzero zero

theorem squeezed_between {before text behind : List Char} (hb : IsBlank before) (hr : IsBlank behind) :
    squeezed (before ++ (text ++ behind)) = squeezed text := by
  rw [squeezed_append, squeezed_append, hb.squeezed, hr.squeezed, List.nil_append, List.append_nil]

/-- An argument is a piece of the notation just where it is read as a position and its white space stands where the
notation has white space. -/
theorem states_iff {argument : List Char} {p : Position} :
    States argument p ↔ Position.read argument = .ok p ∧ IsWellSpaced (argument.map Char.toLower) := by
  rw [read_eq_ok_iff, compact_eq_squeezed, States]
  generalize argument.map Char.toLower = lower
  constructor
  · rintro ⟨before, text, behind, rfl, hb, hr, admits⟩
    rw [squeezed_between hb hr]
    exact ⟨admits.squeezed, admits.denotes.isWellSpaced hb hr⟩
  · rintro ⟨admits, spaced⟩
    cases spaced with
    | @solid before text behind hb hr solid =>
        rw [squeezed_between hb hr, solid.squeezed] at admits
        exact ⟨before, text, behind, rfl, hb, hr, admits⟩
    | @around before front gap gap' back behind sign hb hr hf hg mark hg' hk =>
        have visible : isSpace sign = false := by rcases mark with rfl | rfl <;> decide
        have whole : before ++ (front ++ 'n' :: (gap ++ sign :: (gap' ++ (back ++ behind)))) =
            before ++ ((front ++ 'n' :: (gap ++ sign :: (gap' ++ back))) ++ behind) := by
          simp only [List.append_assoc, List.cons_append]
        rw [whole, squeezed_between hb hr, squeezed_append, hf.squeezed, squeezed_cons (by decide), squeezed_append,
          hg.squeezed, squeezed_cons visible, squeezed_append, hg'.squeezed, hk.squeezed] at admits
        rw [whole]
        refine ⟨before, _, behind, rfl, hb, hr, admits.denotes.spaced mark hk hg hg', admits.step, admits.offset, ?_⟩
        exact fun zero => zero.no_letter (c := 'n') (by decide) (List.mem_append_right front List.mem_cons_self)

end StyleAudit.Selector
