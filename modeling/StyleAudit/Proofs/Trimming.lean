import Mathlib.Data.List.TakeWhile
import StyleAudit.Text.Blank
/-!
What trimming leaves, and what it takes off.
-/
namespace StyleAudit.Text

theorem dropWhile_eq_self {p : Char → Bool} {text : List Char} (h : ∀ c, text.head? = some c → p c = false) :
    text.dropWhile p = text := by
  cases text with
  | nil => rfl
  | cons c text => rw [List.dropWhile_cons, h c rfl]; simp

/-- Blanks at the end do not matter. -/
theorem trimEnd_append {text blanks : List Char} (h : ∀ c ∈ blanks, isBlank c = true) :
    trimEnd (text ++ blanks) = trimEnd text := by
  rw [trimEnd, List.reverse_append, List.dropWhile_append_of_pos fun c hc => h c (List.mem_reverse.mp hc), trimEnd]

theorem trimEnd_eq_self {text : List Char} (h : ∀ c, text.getLast? = some c → isBlank c = false) : trimEnd text = text := by
  have back : text.reverse.dropWhile isBlank = text.reverse :=
    dropWhile_eq_self fun c hc => h c (by rwa [List.head?_reverse] at hc)
  rw [trimEnd, back, List.reverse_reverse]

/-- A text without blanks at its ends stays as it is. -/
theorem trim_eq_self {text : List Char} (first : ∀ c, text.head? = some c → isBlank c = false)
    (last : ∀ c, text.getLast? = some c → isBlank c = false) : trim text = text := by
  rw [trim, trimStart, dropWhile_eq_self first, trimEnd_eq_self last]

theorem trim_eq_self_of_all {text : List Char} (h : ∀ c ∈ text, isBlank c = false) : trim text = text :=
  trim_eq_self (fun c hc => h c (List.mem_of_mem_head? hc)) fun c hc => h c (List.mem_of_mem_getLast? hc)

theorem dropWhile_ne_nil {p : Char → Bool} {text : List Char} (h : ∃ c ∈ text, p c = false) : text.dropWhile p ≠ [] := by
  intro none
  obtain ⟨c, mem, visible⟩ := h
  rw [List.dropWhile_eq_nil_iff.mp none c mem] at visible
  cases visible

/-- Trimming leaves something of a text that is not all blank. -/
theorem trim_ne_nil {text : List Char} (h : ∃ c ∈ text, isBlank c = false) : trim text ≠ [] := by
  have front := dropWhile_ne_nil h
  obtain ⟨c, rest, start⟩ := List.exists_cons_of_ne_nil front
  have visible : isBlank c = false := by
    have head := List.head_dropWhile_not isBlank front
    simpa [start] using head
  have back : (trimStart text).reverse.dropWhile isBlank ≠ [] :=
    dropWhile_ne_nil ⟨c, List.mem_reverse.mpr (by rw [trimStart, start]; exact List.mem_cons_self), visible⟩
  rw [trim, trimEnd, Ne, List.reverse_eq_nil_iff]
  exact back

/-- A text is what trimming leaves of it, with blanks on both sides. -/
theorem trim_parts (text : List Char) : ∃ before behind : List Char, text = before ++ (trim text ++ behind) ∧
    (∀ c ∈ before, isBlank c = true) ∧ ∀ c ∈ behind, isBlank c = true := by
  have all (l : List Char) : ∀ c ∈ l.takeWhile isBlank, isBlank c = true := List.all_eq_true.mp List.all_takeWhile
  refine ⟨text.takeWhile isBlank, ((trimStart text).reverse.takeWhile isBlank).reverse, ?_, all text, fun c hc => ?_⟩
  · rw [trim, trimEnd, ← List.reverse_append, List.takeWhile_append_dropWhile, List.reverse_reverse, trimStart,
      List.takeWhile_append_dropWhile]
  · exact all _ c (List.mem_reverse.mp hc)

/-- What trimming leaves has no blank at either end. -/
theorem trim_ends (text : List Char) :
    (∀ c, (trim text).head? = some c → isBlank c = false) ∧ ∀ c, (trim text).getLast? = some c → isBlank c = false := by
  have first (l : List Char) (c : Char) (h : (l.dropWhile isBlank).head? = some c) : isBlank c = false := by
    have head := List.head?_dropWhile_not isBlank l
    rw [h] at head
    simpa using head
  refine ⟨fun c hc => first text c ?_, fun c hc => first (trimStart text).reverse c ?_⟩
  · have suffix : (trimStart text).reverse.dropWhile isBlank <:+ (trimStart text).reverse := List.dropWhile_suffix _
    rw [← List.reverse_prefix, List.reverse_reverse] at suffix
    obtain ⟨behind, whole⟩ := suffix
    change (trimStart text).head? = some c
    rw [← whole, List.head?_append]
    exact Option.or_eq_some_iff.mpr (.inl hc)
  · rwa [trim, trimEnd, List.getLast?_reverse] at hc

/-- A first character that is no blank stays the first. -/
theorem trim_cons {c : Char} (h : isBlank c = false) (rest : List Char) : ∃ more, trim (c :: rest) = c :: more := by
  obtain ⟨before, behind, parts, blank, -⟩ := trim_parts (c :: rest)
  obtain ⟨d, more, trimmed⟩ := List.exists_cons_of_ne_nil (trim_ne_nil ⟨c, List.mem_cons_self, h⟩)
  rw [trimmed] at parts ⊢
  cases before with
  | nil => exact ⟨more, by rw [(List.cons.inj parts).1]⟩
  | cons e before =>
      obtain rfl := (List.cons.inj parts).1
      rw [blank c List.mem_cons_self] at h
      cases h

theorem trim_trim (text : List Char) : trim (trim text) = trim text := trim_eq_self (trim_ends text).1 (trim_ends text).2

/-- Blanks on both sides do not matter. -/
theorem trim_append {before text behind : List Char} (hb : ∀ c ∈ before, isBlank c = true)
    (hr : ∀ c ∈ behind, isBlank c = true) (ht : trim text = text) : trim (before ++ (text ++ behind)) = text := by
  obtain ⟨first, last⟩ := trim_ends text
  rw [ht] at first last
  cases text with
  | nil =>
      have all : ∀ c ∈ before ++ ([] ++ behind), isBlank c = true := List.forall_mem_append.mpr ⟨hb, hr⟩
      rw [trim, trimStart, List.dropWhile_eq_nil_iff.mpr all]
      rfl
  | cons c rest =>
      have start : trimStart (before ++ (c :: rest ++ behind)) = c :: rest ++ behind := by
        rw [trimStart, List.dropWhile_append_of_pos hb, List.cons_append,
          List.dropWhile_cons_of_neg (by simp [first c rfl])]
      rw [trim, start, trimEnd_append hr, trimEnd_eq_self last]

end StyleAudit.Text
