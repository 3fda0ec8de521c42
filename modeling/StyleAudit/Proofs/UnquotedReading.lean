import StyleAudit.Proofs.PositionNotation
import StyleAudit.Proofs.PseudoSites
import StyleAudit.Proofs.Trimming
/-!
What scanners take from a text without quotes and backslashes. Apart from colons and parentheses it is all plain
characters, and a name is as long as its characters go.
-/
namespace StyleAudit.Selector

open Text (Scan)

/-- A text without quotes and backslashes. -/
def IsUnquoted (text : List Char) : Prop := ∀ c ∈ text, c ≠ '"' ∧ c ≠ '\'' ∧ c ≠ '\\'

theorem isUnquoted_of_all {text : List Char} (h : (text.all fun c => c != '"' && c != '\'' && c != '\\') = true) :
    IsUnquoted text := by
  intro c hc
  have other := List.all_eq_true.mp h c hc
  simpa [and_assoc] using other

theorem IsUnquoted.mono {text other : List Char} (h : IsUnquoted text) (sub : other ⊆ text) : IsUnquoted other :=
  fun c hc => h c (sub hc)

theorem IsUnquoted.drop {text : List Char} (h : IsUnquoted text) (n : Nat) : IsUnquoted (text.drop n) :=
  h.mono (List.drop_subset n text)

theorem IsUnquoted.tail {text : List Char} {c : Char} (h : IsUnquoted (c :: text)) : IsUnquoted text :=
  h.mono (List.subset_cons_self c text)

/-- The text begins with that many plain characters. -/
def Passes (text : List Char) (n : Nat) : Prop := n ≤ text.length ∧ ∀ c ∈ text.take n, isPlain c = true

theorem Passes.zero (text : List Char) : Passes text 0 := ⟨Nat.zero_le _, by simp⟩

theorem Passes.one {c : Char} {rest : List Char} (h : isPlain c = true) : Passes (c :: rest) 1 := by
  refine ⟨by simp, fun d hd => ?_⟩
  rw [List.take_succ_cons, List.take_zero, List.mem_singleton] at hd
  rwa [hd]

theorem Passes.add {text : List Char} {n m : Nat} (h : Passes text n) (h' : Passes (text.drop n) m) :
    Passes text (n + m) := by
  obtain ⟨size, plain⟩ := h
  obtain ⟨size', plain'⟩ := h'
  rw [List.length_drop] at size'
  refine ⟨by omega, fun c hc => ?_⟩
  rw [List.take_add, List.mem_append] at hc
  exact hc.elim (plain c) (plain' c)

theorem takeWhile_eq_take (p : Char → Bool) (text : List Char) :
    text.take (text.takeWhile p).length = text.takeWhile p :=
  (List.prefix_iff_eq_take.mp (List.takeWhile_prefix p)).symm

theorem passes_takeWhile {p : Char → Bool} (hp : ∀ c, p c = true → isPlain c = true) (text : List Char) :
    Passes text (text.takeWhile p).length := by
  refine ⟨(List.takeWhile_prefix p).length_le, fun c hc => hp c ?_⟩
  rw [takeWhile_eq_take] at hc
  exact List.all_eq_true.mp List.all_takeWhile c hc

theorem stopsAt_drop_takeWhile (p : Char → Bool) (text : List Char) :
    StopsAt p (text.drop (text.takeWhile p).length) := by
  have behind : text.drop (text.takeWhile p).length = text.dropWhile p := by
    calc text.drop (text.takeWhile p).length
        = (text.takeWhile p ++ text.dropWhile p).drop (text.takeWhile p).length := by rw [List.takeWhile_append_dropWhile]
      _ = text.dropWhile p := List.drop_left
  rw [behind]
  intro c hc
  have first := List.head?_dropWhile_not p text
  rw [hc] at first
  simpa using first

theorem isPlain_of_isSpace {c : Char} (h : isSpace c = true) : isPlain c = true := by
  rw [isSpace_iff] at h
  rw [isPlain_iff]
  omega

theorem isPlain_of_isNameChar {c : Char} (h : isNameChar c = true) : isPlain c = true := by
  rw [isNameChar_iff, isNameStart_iff] at h
  rw [isPlain_iff]
  omega

theorem passes_spaces (text : List Char) : Passes text (spaces text) :=
  passes_takeWhile (fun _ => isPlain_of_isSpace) text

/-! Names. -/

theorem startsEscape_unescaped {text : List Char} (h : '\\' ∉ text) : startsEscape text = false := by
  unfold startsEscape
  split
  · exact absurd List.mem_cons_self h
  · rfl

theorem nameChars_unescaped {text : List Char} (h : '\\' ∉ text) :
    nameChars text = ⟨text.takeWhile isNameChar, (text.takeWhile isNameChar).length⟩ := by
  induction text with
  | nil => rw [nameChars]; rfl
  | cons c text ih =>
      rw [nameChars, startsEscape_unescaped h, if_neg Bool.false_ne_true, List.takeWhile_cons]
      split
      · rw [ih fun mem => h (List.mem_cons_of_mem c mem), Scan.behind, List.length_cons, Nat.add_comm]
      · rfl

theorem IsUnquoted.unescaped {text : List Char} (h : IsUnquoted text) : '\\' ∉ text := fun mem => (h _ mem).2.2 rfl

theorem name_unquoted {text : List Char} (h : IsUnquoted text) {role : NameRole} {pos : Nat} {s : Scan String}
    (hs : name role pos text = .ok s) : text.takeWhile isNameChar ≠ [] ∧
      s = ⟨String.ofList (text.takeWhile isNameChar), (text.takeWhile isNameChar).length⟩ := by
  rw [name, nameChars_unescaped h.unescaped] at hs
  dsimp only at hs
  split at hs
  · cases hs
  · next visible => exact ⟨visible, (Except.ok.inj hs).symm⟩

theorem ident_unquoted {text : List Char} (h : IsUnquoted text) {role : NameRole} {pos : Nat} {s : Scan String}
    (hs : ident role pos text = .ok s) : text.takeWhile isNameChar ≠ [] ∧
      s = ⟨String.ofList (text.takeWhile isNameChar), (text.takeWhile isNameChar).length⟩ := by
  unfold ident at hs
  split at hs
  · exact name_unquoted h hs
  · split at hs <;> cases hs

theorem passes_name {text : List Char} (h : IsUnquoted text) {role : NameRole} {pos : Nat} {s : Scan String}
    (hs : name role pos text = .ok s) : Passes text s.size := by
  rw [(name_unquoted h hs).2]
  exact passes_takeWhile (fun _ => isPlain_of_isNameChar) text

theorem passes_ident {text : List Char} (h : IsUnquoted text) {role : NameRole} {pos : Nat} {s : Scan String}
    (hs : ident role pos text = .ok s) : Passes text s.size := by
  rw [(ident_unquoted h hs).2]
  exact passes_takeWhile (fun _ => isPlain_of_isNameChar) text

/-! Attribute selectors. -/

theorem passes_attributeValue {text : List Char} (h : IsUnquoted text) {pos : Nat} {s : Scan String}
    (hs : attributeValue pos text = .ok s) : Passes text s.size := by
  unfold attributeValue at hs
  split at hs
  · next c rest =>
      obtain ⟨double, single, -⟩ := h c List.mem_cons_self
      rw [if_neg fun quote => quote.elim double single] at hs
      exact passes_ident h hs
  · exact passes_ident h hs

theorem isPlain_of_sign {c : Char} {test : AttributeTest} (h : AttributeTest.ofSign? c = some test) :
    isPlain c = true := by
  unfold AttributeTest.ofSign? at h
  split at h <;> first | decide | cases h

theorem passes_attributeTest {text : List Char} {pos : Nat} {s : Scan (Option AttributeTest)}
    (hs : attributeTest pos text = .ok s) : Passes text s.size := by
  unfold attributeTest at hs
  split at hs
  · cases hs
  · obtain rfl := Except.ok.inj hs
    exact .one (by decide)
  · obtain rfl := Except.ok.inj hs
    exact .one (by decide)
  · next c rest _ _ =>
      split at hs
      · next test sign =>
          obtain rfl := Except.ok.inj hs
          exact Passes.add (n := 1) (m := 1) (.one (isPlain_of_sign sign)) (.one (by decide))
      · cases hs
  · cases hs

theorem isPlain_of_isCaseFlag {c : Char} (h : isCaseFlag c = true) : isPlain c = true := by
  simp only [isCaseFlag, Bool.or_eq_true, beq_iff_eq] at h
  rcases h with ((rfl | rfl) | rfl) | rfl <;> decide

theorem passes_attributeEnd {text : List Char} {pos : Nat} {s : Scan Unit} (hs : attributeEnd pos text = .ok s) :
    Passes text s.size := by
  unfold attributeEnd at hs
  split at hs
  · cases hs
  · next c rest =>
      split at hs
      · next bracket =>
          obtain rfl := Except.ok.inj hs
          exact .one (by rw [bracket]; decide)
      · split at hs
        · next flag =>
            split at hs
            · obtain rfl := Except.ok.inj hs
              exact Passes.add (n := 1) (m := 1) (.one (isPlain_of_isCaseFlag flag)) (.one (by decide))
            · cases hs
        · cases hs

theorem passes_attributeSelector {text : List Char} (h : IsUnquoted text) {pos : Nat} {s : Scan Simple}
    (hs : attributeSelector pos text = .ok s) : Passes text s.size := by
  unfold attributeSelector at hs
  simp only [bind, Except.bind, pure, Except.pure] at hs
  split at hs
  · cases hs
  · next name found =>
      have n₁ := (passes_spaces text).add (passes_ident (h.drop _) found)
      have n₂ := n₁.add (passes_spaces _)
      split at hs
      · cases hs
      · next test found =>
          have n₃ := n₂.add (passes_attributeTest found)
          split at hs
          · obtain rfl := Except.ok.inj hs
            exact n₃
          · have n₄ := n₃.add (passes_spaces _)
            split at hs
            · cases hs
            · next value found =>
                have n₅ := n₄.add (passes_attributeValue (h.drop _) found)
                have n₆ := n₅.add (passes_spaces _)
                split at hs
                · cases hs
                · next stop found =>
                    obtain rfl := Except.ok.inj hs
                    exact n₆.add (passes_attributeEnd found)

/-! Arguments. -/

theorem argumentSize_unquoted {text : List Char} (h : IsUnquoted text) {depth size : Nat}
    (hs : argumentSize depth none text = some size) : ∃ rest, text.drop size = ')' :: rest := by
  induction text generalizing depth size with
  | nil => cases hs
  | cons c text ih =>
      obtain ⟨double, single, -⟩ := h c List.mem_cons_self
      have step {depth : Nat} (hs : (argumentSize depth none text).map (1 + ·) = some size) :
          ∃ rest, (c :: text).drop size = ')' :: rest := by
        obtain ⟨n, found, rfl⟩ := Option.map_eq_some_iff.mp hs
        obtain ⟨rest, behind⟩ := ih h.tail found
        exact ⟨rest, by rw [Nat.add_comm, List.drop_succ_cons, behind]⟩
      rw [argumentSize.eq_def] at hs
      dsimp only at hs
      rw [if_neg fun quote => quote.elim double single] at hs
      split at hs
      · exact step hs
      · split at hs
        · next closing =>
            cases depth with
            | zero =>
                obtain rfl := Option.some.inj hs
                exact ⟨text, by rw [closing]; rfl⟩
            | succ outer => exact step hs
        · exact step hs

theorem isBareChar_iff {c : Char} : isBareChar c = true ↔ isPlain c = true ∧ c.toNat ≠ 46 ∧ c.toNat ≠ 35 := by
  simp [isBareChar, char_eq_iff, and_assoc]

theorem isBareChar_of_isBlank {c : Char} (h : Text.isBlank c = true) : isBareChar c = true := by
  rw [isBlank_iff] at h
  rw [isBareChar_iff, isPlain_iff]
  omega

theorem isBareChar_of_isLanguageChar {c : Char} (h : isLanguageChar c = true) : isBareChar c = true := by
  simp only [isLanguageChar, Char.isAlphanum, Bool.or_eq_true, beq_iff_eq, isAlpha_iff, isDigit_iff, char_eq_iff] at h
  rw [isBareChar_iff, isPlain_iff]
  change _ ∨ c.toNat = 45 at h
  omega

theorem language_bare {argument : List Char} {pos : Nat} {simple : Simple} (h : language pos argument = .ok simple) :
    ∀ c ∈ argument, isBareChar c = true := by
  rw [language] at h
  split at h
  · next range =>
      obtain ⟨before, behind, parts, blank, blank'⟩ := Text.trim_parts argument
      intro c hc
      rw [parts, List.mem_append, List.mem_append] at hc
      rcases hc with hc | hc | hc
      · exact isBareChar_of_isBlank (blank c hc)
      · exact isBareChar_of_isLanguageChar (List.all_eq_true.mp range.2 c hc)
      · exact isBareChar_of_isBlank (blank' c hc)
  · cases h

/-- The characters of a position, in lower case: letters, digits and signs. -/
def isPositional (c : Char) : Bool := c.isDigit || c == '+' || c == '-' || c.isLower

theorem isPositional_iff {c : Char} : isPositional c = true ↔
    (48 ≤ c.toNat ∧ c.toNat ≤ 57) ∨ c.toNat = 43 ∨ c.toNat = 45 ∨ (97 ≤ c.toNat ∧ c.toNat ≤ 122) := by
  simp [isPositional, isDigit_iff, isLower_iff, char_eq_iff, or_assoc]

theorem isPositional_of_isNumeralChar {c : Char} (h : c.isDigit = true ∨ c = '+' ∨ c = '-') : isPositional c = true := by
  rcases h with digit | rfl | rfl
  · simp [isPositional, digit]
  · decide
  · decide

theorem position_positional {argument : List Char} {position : Position} (h : Position.read argument = .ok position) :
    ∀ c ∈ compact argument, isPositional c = true := by
  have solid := isSolid_compact argument
  have denotes := (read_eq_ok_iff.mp h).denotes
  generalize compact argument = word at denotes solid ⊢
  cases denotes with
  | odd => exact List.all_eq_true.mp (by decide)
  | even => exact List.all_eq_true.mp (by decide)
  | stepped step offset =>
      refine List.forall_mem_append.mpr ⟨fun c hc => isPositional_of_isNumeralChar (step.chars c hc),
        List.forall_mem_cons.mpr ⟨by decide, fun c hc => isPositional_of_isNumeralChar ?_⟩⟩
      refine (offset.chars c hc).resolve_left fun space => ?_
      rw [solid.behind.tail c hc] at space
      cases space
  | numeral numeral => exact fun c hc => isPositional_of_isNumeralChar (numeral.chars c hc)

/-- The characters of an argument that is a position. -/
theorem position_chars {argument : List Char} {position : Position} (h : Position.read argument = .ok position) :
    ∀ c ∈ argument, isSpace c = true ∨ isPositional c.toLower = true := by
  intro c hc
  cases space : isSpace c with
  | true => exact .inl rfl
  | false =>
      refine .inr (position_positional h _ (List.mem_map_of_mem (List.mem_filter.mpr ⟨hc, ?_⟩)))
      rw [space]
      rfl

theorem position_bare {argument : List Char} {position : Position} (h : Position.read argument = .ok position) :
    ∀ c ∈ argument, isBareChar c = true := by
  intro c hc
  rcases position_chars h c hc with space | positional
  · rw [isSpace_iff] at space
    rw [isBareChar_iff, isPlain_iff]
    omega
  · rw [isPositional_iff] at positional
    rw [isBareChar_iff, isPlain_iff]
    by_cases upper : 65 ≤ c.toNat ∧ c.toNat ≤ 90
    · omega
    · rw [toLower_eq_self upper] at positional
      omega

/-- A plain zero is no position, whatever blanks are around it. -/
theorem position_nonzero {argument : List Char} {position : Position} (h : Position.read argument = .ok position) :
    Text.trim argument ≠ ['0'] := by
  intro zero
  obtain ⟨before, behind, parts, blank, blank'⟩ := Text.trim_parts argument
  have space : ∀ c ∈ argument, Text.isBlank c = true → isSpace c = true := by
    intro c hc white
    refine (position_chars h c hc).resolve_right fun positional => ?_
    rw [isBlank_iff] at white
    rw [toLower_eq_self (by omega), isPositional_iff] at positional
    omega
  have gone (l : List Char) (sub : l ⊆ argument) (white : ∀ c ∈ l, Text.isBlank c = true) :
      l.filter (!isSpace ·) = [] := by
    rw [List.filter_eq_nil_iff]
    intro c hc
    simp [space c (sub hc) (white c hc)]
  have left : compact argument = ['0'] := by
    rw [zero] at parts
    rw [compact, parts, List.filter_append, List.filter_append, gone before (by rw [parts]; simp) blank,
      gone behind (by rw [parts]; intro c hc; simp [hc]) blank']
    rfl
  have admits := read_eq_ok_iff.mp h
  rw [left] at admits
  exact admits.nonzero (integer?_eq_some_iff.mp (by decide)).1

end StyleAudit.Selector
