import StyleAudit.Proofs.AcceptedSelectors
/-!
Reading in front of a quoted negation. Nothing but a pseudo goes past a colon, and a negation does not go past a quote at
the start of its argument: a text that comes to one is no selector.
-/
namespace StyleAudit.Selector

open Text (Scan)

/-! In front of a colon. -/

/-- Behind that many characters, none of them a quote, a colon follows. No backslash stands anywhere. -/
structure Barred (text : List Char) (n : Nat) : Prop where
  colon : text[n]? = some ':'
  unquoted : ∀ c ∈ text.take n, c ≠ '"' ∧ c ≠ '\''
  unescaped : '\\' ∉ text

section
variable {text : List Char} {n k pos : Nat}

theorem Barred.drop (h : Barred text n) (hk : k ≤ n) : Barred (text.drop k) (n - k) where
  colon := by rw [List.getElem?_drop, Nat.add_sub_cancel' hk]; exact h.colon
  unquoted c hc := by
    rw [List.take_drop, Nat.add_sub_cancel' hk] at hc
    exact h.unquoted c (List.mem_of_mem_drop hc)
  unescaped mem := h.unescaped (List.mem_of_mem_drop mem)

/-- What goes on only over other characters ends in front of the colon. -/
theorem Barred.le_of_all (h : Barred text n) {size : Nat} (all : ∀ c ∈ text.take size, c ≠ ':') : size ≤ n := by
  by_contra past
  exact all ':' (List.mem_of_getElem? ((List.getElem?_take_of_lt (by omega)).trans h.colon)) rfl

/-- One reader behind the other. -/
theorem Barred.next (h : Barred text n) {m : Nat} (hk : k ≤ n) (hm : Barred (text.drop k) (n - k) → m ≤ n - k) :
    k + m ≤ n := by
  have rest := hm (h.drop hk)
  omega

theorem Barred.takeWhile (h : Barred text n) {p : Char → Bool} (hp : p ':' = false) : (text.takeWhile p).length ≤ n := by
  refine h.le_of_all fun c hc => ?_
  rw [takeWhile_eq_take] at hc
  rintro rfl
  exact absurd (List.all_eq_true.mp List.all_takeWhile ':' hc) (by rw [hp]; exact Bool.false_ne_true)

theorem Barred.spaces (h : Barred text n) : spaces text ≤ n := h.takeWhile (by decide)

theorem Barred.name (h : Barred text n) {role : NameRole} {s : Scan String} (hs : name role pos text = .ok s) :
    s = ⟨String.ofList (text.takeWhile isNameChar), (text.takeWhile isNameChar).length⟩ ∧ s.size ≤ n := by
  rw [Selector.name, nameChars_unescaped h.unescaped] at hs
  dsimp only at hs
  split at hs
  · cases hs
  · obtain rfl := Except.ok.inj hs
    exact ⟨rfl, h.takeWhile (by decide)⟩

theorem Barred.ident (h : Barred text n) {role : NameRole} {s : Scan String} (hs : ident role pos text = .ok s) :
    s = ⟨String.ofList (text.takeWhile isNameChar), (text.takeWhile isNameChar).length⟩ ∧ s.size ≤ n := by
  unfold Selector.ident at hs
  split at hs
  · exact h.name hs
  · split at hs <;> cases hs

theorem Barred.attributeTest (h : Barred text n) {s : Scan (Option AttributeTest)}
    (hs : attributeTest pos text = .ok s) : s.size ≤ n := by
  refine h.le_of_all fun c hc => ?_
  rintro rfl
  exact absurd ((passes_attributeTest hs).2 ':' hc) (by decide)

theorem Barred.attributeEnd (h : Barred text n) {s : Scan Unit} (hs : attributeEnd pos text = .ok s) : s.size ≤ n := by
  refine h.le_of_all fun c hc => ?_
  rintro rfl
  exact absurd ((passes_attributeEnd hs).2 ':' hc) (by decide)

theorem Barred.head (h : Barred text n) {c : Char} (hc : text.head? = some c) : c ≠ '"' ∧ c ≠ '\'' := by
  obtain ⟨rest, rfl⟩ := List.head?_eq_some_iff.mp hc
  cases n with
  | zero =>
      obtain rfl := Option.some.inj h.colon
      decide
  | succ n => exact h.unquoted c List.mem_cons_self

theorem Barred.attributeValue (h : Barred text n) {s : Scan String} (hs : attributeValue pos text = .ok s) : s.size ≤ n := by
  unfold Selector.attributeValue at hs
  split at hs
  · obtain ⟨double, single⟩ := h.head rfl
    rw [if_neg fun quote => quote.elim double single] at hs
    exact (h.ident hs).2
  · exact (h.ident hs).2

theorem Barred.attributeSelector (h : Barred text n) {s : Scan Simple} (hs : attributeSelector pos text = .ok s) :
    s.size ≤ n := by
  unfold Selector.attributeSelector at hs
  simp only [bind, Except.bind, pure, Except.pure] at hs
  split at hs
  · cases hs
  · next name found =>
      have n₁ := h.next h.spaces fun h => (h.ident found).2
      have n₂ := h.next n₁ fun h => h.spaces
      split at hs
      · cases hs
      · next test found =>
          have n₃ := h.next n₂ fun h => h.attributeTest found
          split at hs
          · obtain rfl := Except.ok.inj hs
            exact n₃
          · have n₄ := h.next n₃ fun h => h.spaces
            split at hs
            · cases hs
            · next value found =>
                have n₅ := h.next n₄ fun h => h.attributeValue found
                have n₆ := h.next n₅ fun h => h.spaces
                split at hs
                · cases hs
                · next stop found =>
                    obtain rfl := Except.ok.inj hs
                    exact h.next n₆ fun h => h.attributeEnd found

theorem Barred.typeSelector (h : Barred text n) {s : Scan Compound} (hs : typeSelector pos text = .ok s) : s.size ≤ n := by
  unfold Selector.typeSelector at hs
  split at hs
  · next star =>
      obtain rfl := Except.ok.inj hs
      cases n with
      | zero =>
          have colon := h.colon
          rw [← List.head?_eq_getElem?, star] at colon
          cases colon
      | succ n => exact Nat.succ_le_succ (Nat.zero_le n)
  · split at hs
    · cases found : Selector.ident .element pos text with
      | error e => rw [found] at hs; cases hs
      | ok name =>
          rw [found] at hs
          obtain rfl := Except.ok.inj hs
          exact (h.ident found).2
    · obtain rfl := Except.ok.inj hs
      exact Nat.zero_le _

end

/-! In front of a quoted negation. -/

/-- Behind that many characters stands a negation with a quote at the start of its argument, and no quote or backslash
before it. -/
structure QuotedAhead (text : List Char) (n : Nat) : Prop where
  parts : ∃ front word quote more, text = front ++ ':' :: (word ++ '(' :: quote :: more) ∧ n = front.length ∧
    lower word = "not" ∧ (quote = '"' ∨ quote = '\'') ∧ ∀ c ∈ front, c ≠ '"' ∧ c ≠ '\''
  unescaped : '\\' ∉ text

theorem not_word {word : List Char} (name : lower word = "not") : word.length = 3 ∧ ∀ c ∈ word, isWordChar c = true := by
  have length := congrArg (fun w : String => w.toList.length) name
  rw [toList_lower, List.length_map] at length
  exact ⟨length, (word_of_lower (by rw [name]; exact List.mem_cons_self)).2⟩

section
variable {text : List Char} {n k pos : Nat}

theorem QuotedAhead.barred (h : QuotedAhead text n) : Barred text n := by
  obtain ⟨front, word, quote, more, rfl, rfl, -, -, unquoted⟩ := h.parts
  refine ⟨?_, ?_, h.unescaped⟩
  · rw [List.getElem?_append_right (le_refl _), Nat.sub_self]
    rfl
  · rwa [List.take_left]

theorem QuotedAhead.drop (h : QuotedAhead text n) (hk : k ≤ n) : QuotedAhead (text.drop k) (n - k) := by
  obtain ⟨front, word, quote, more, rfl, rfl, name, quoted, unquoted⟩ := h.parts
  refine ⟨⟨front.drop k, word, quote, more, List.drop_append_of_le_length hk, by rw [List.length_drop], name, quoted,
    fun c hc => unquoted c (List.mem_of_mem_drop hc)⟩, fun mem => h.unescaped (List.mem_of_mem_drop mem)⟩

/-- One reader behind the other. -/
theorem QuotedAhead.next (h : QuotedAhead text n) {m : Nat} (hk : k ≤ n)
    (hm : QuotedAhead (text.drop k) (n - k) → m ≤ n - k) : k + m ≤ n := by
  have rest := hm (h.drop hk)
  omega

/-- Characters that are no parentheses and no quotes are passed over. -/
theorem argumentSize_skip {c : Char} (h : (c ≠ '"' ∧ c ≠ '\'') ∧ c ≠ '(' ∧ c ≠ ')') {rest : List Char} {depth size : Nat}
    (hs : argumentSize depth none (c :: rest) = some size) : ∃ n, argumentSize depth none rest = some n ∧ size = 1 + n := by
  rw [argumentSize.eq_def] at hs
  dsimp only at hs
  rw [if_neg (not_or.mpr h.1), if_neg h.2.1, if_neg h.2.2] at hs
  obtain ⟨n, found, rfl⟩ := Option.map_eq_some_iff.mp hs
  exact ⟨n, found, rfl⟩

/-- An argument does not end in front of a quote that stands directly behind a word and its parenthesis. -/
theorem argumentSize_call {word more : List Char} {quote : Char} (letters : ∀ c ∈ word, isWordChar c = true)
    (quoted : quote = '"' ∨ quote = '\'') {depth size : Nat}
    (hs : argumentSize depth none (word ++ '(' :: quote :: more) = some size) : word.length + 2 ≤ size := by
  induction word generalizing size with
  | nil =>
      rw [List.nil_append, argumentSize.eq_def] at hs
      dsimp only at hs
      rw [if_neg (by decide), if_pos rfl, argumentSize.eq_def] at hs
      dsimp only at hs
      rw [if_pos quoted, Option.map_map] at hs
      obtain ⟨n, -, rfl⟩ := Option.map_eq_some_iff.mp hs
      simp only [List.length_nil, Function.comp_apply]
      omega
  | cons c word ih =>
      have letter := letters c List.mem_cons_self
      have other : (c ≠ '"' ∧ c ≠ '\'') ∧ c ≠ '(' ∧ c ≠ ')' := by
        refine ⟨⟨?_, ?_⟩, ?_, ?_⟩ <;> rintro rfl <;> exact absurd letter (by decide)
      obtain ⟨m, found, rfl⟩ := argumentSize_skip other hs
      have rest := ih (fun d hd => letters d (List.mem_cons_of_mem c hd)) found
      rw [List.length_cons]
      omega

/-- An argument that does not end before the negation holds its quote. -/
theorem argumentSize_ahead {front word more : List Char} {quote : Char} {depth size : Nat}
    (unquoted : ∀ c ∈ front, c ≠ '"' ∧ c ≠ '\'') (letters : ∀ c ∈ word, isWordChar c = true)
    (quoted : quote = '"' ∨ quote = '\'')
    (hs : argumentSize depth none (front ++ ':' :: (word ++ '(' :: quote :: more)) = some size) :
    size < front.length ∨ front.length + word.length + 3 ≤ size := by
  induction front generalizing depth size with
  | nil =>
      obtain ⟨m, found, rfl⟩ := argumentSize_skip (by decide) hs
      have behind := argumentSize_call letters quoted found
      simp only [List.length_nil]
      omega
  | cons c front ih =>
      have step {depth : Nat} (hs : (argumentSize depth none (front ++ ':' :: (word ++ '(' :: quote :: more))).map (1 + ·) =
          some size) : size < (c :: front).length ∨ (c :: front).length + word.length + 3 ≤ size := by
        obtain ⟨m, found, rfl⟩ := Option.map_eq_some_iff.mp hs
        have rest := ih (fun d hd => unquoted d (List.mem_cons_of_mem c hd)) found
        rw [List.length_cons]
        omega
      obtain ⟨double, single⟩ := unquoted c List.mem_cons_self
      rw [List.cons_append, argumentSize.eq_def] at hs
      dsimp only at hs
      rw [if_neg (not_or.mpr ⟨double, single⟩)] at hs
      split at hs
      · exact step hs
      · split at hs
        · cases depth with
          | zero =>
              obtain rfl := Option.some.inj hs
              exact .inl (Nat.succ_pos _)
          | succ outer => exact step hs
        · exact step hs

/-- Nothing of the negation is cut off if its quote is kept. -/
theorem QuotedAhead.take {front word more : List Char} {quote : Char} {size : Nat}
    (h : QuotedAhead (front ++ ':' :: (word ++ '(' :: quote :: more)) n) (name : lower word = "not")
    (quoted : quote = '"' ∨ quote = '\'') (unquoted : ∀ c ∈ front, c ≠ '"' ∧ c ≠ '\'')
    (kept : front.length + word.length + 3 ≤ size) :
    QuotedAhead ((front ++ ':' :: (word ++ '(' :: quote :: more)).take size) front.length := by
  obtain ⟨m, rfl⟩ : ∃ m, size = (front ++ ':' :: (word ++ ['(', quote])).length + m :=
    ⟨size - (front.length + word.length + 3), by simp; omega⟩
  have cut : front ++ ':' :: (word ++ '(' :: quote :: more) = (front ++ ':' :: (word ++ ['(', quote])) ++ more := by simp
  refine ⟨⟨front, word, quote, more.take m, ?_, rfl, name, quoted, unquoted⟩, fun mem =>
    h.unescaped (List.mem_of_mem_take mem)⟩
  rw [cut, List.take_length_add_append]
  simp

/-- Such an argument, taken out. -/
theorem QuotedAhead.argument (h : QuotedAhead text n) {size : Nat} (hs : argumentSize 0 none text = some size) :
    size < n ∨ QuotedAhead (text.take size) n := by
  obtain ⟨front, word, quote, more, rfl, rfl, name, quoted, unquoted⟩ := h.parts
  rcases argumentSize_ahead unquoted (not_word name).2 quoted hs with before | behind
  · exact .inl before
  · exact .inr (h.take name quoted unquoted behind)

/-- A negation is no blank, so trimming leaves it. -/
theorem QuotedAhead.trim (h : QuotedAhead text n) : ∃ m, QuotedAhead (Text.trim text) m := by
  obtain ⟨before, behind, parts, blank, blank'⟩ := Text.trim_parts text
  have later : before.length ≤ n := by
    refine h.barred.le_of_all fun c hc => ?_
    rw [parts, List.take_left] at hc
    rintro rfl
    exact absurd (blank _ hc) (by decide)
  have dropped := h.drop later
  have rest : text.drop before.length = Text.trim text ++ behind := by
    conv_lhs => rw [parts]
    rw [List.drop_left]
  rw [rest] at dropped
  obtain ⟨front, word, quote, more, same, -, name, quoted, unquoted⟩ := dropped.parts
  have kept : front.length + word.length + 3 ≤ (Text.trim text).length := by
    by_contra cut
    -- the quote would be one of the blanks behind
    have quote' : (Text.trim text ++ behind)[front.length + word.length + 2]? = some quote := by
      have index : front.length + word.length + 2 - front.length = word.length + 1 + 1 := by omega
      rw [same, List.getElem?_append_right (by omega), index, List.getElem?_cons_succ,
        List.getElem?_append_right (by omega), Nat.add_sub_cancel_left]
      rfl
    rw [List.getElem?_append_right (by omega)] at quote'
    have white := blank' quote (List.mem_of_getElem? quote')
    rcases quoted with rfl | rfl <;> exact absurd white (by decide)
  rw [same] at dropped
  have taken := dropped.take name quoted unquoted kept
  rw [← same, List.take_left] at taken
  exact ⟨_, taken⟩

/-! Pseudos. -/

/-- In front of anything but a colon. -/
theorem QuotedAhead.tail {c : Char} {rest : List Char} (h : QuotedAhead (c :: rest) n) (hc : c ≠ ':') :
    ∃ m, n = m + 1 ∧ QuotedAhead rest m := by
  cases n with
  | zero => exact absurd (Option.some.inj h.barred.colon) hc
  | succ m => exact ⟨m, rfl, h.drop (k := 1) (by omega)⟩

/-- The negation itself, behind its colon. -/
theorem QuotedAhead.here {rest : List Char} (h : QuotedAhead (':' :: rest) 0) : ∃ word quote more,
    rest = word ++ '(' :: quote :: more ∧ lower word = "not" ∧ (quote = '"' ∨ quote = '\'') := by
  obtain ⟨front, word, quote, more, same, empty, name, quoted, -⟩ := h.parts
  obtain rfl := List.length_eq_zero_iff.mp empty.symm
  exact ⟨word, quote, more, (List.cons.inj same).2, name, quoted⟩

theorem ident_call {role : NameRole} {word rest : List Char} (letters : ∀ c ∈ word, isWordChar c = true)
    {s : Scan String} (hs : ident role pos (word ++ '(' :: rest) = .ok s) :
    s = ⟨String.ofList word, word.length⟩ := by
  have chars : nameChars (word ++ '(' :: rest) = ⟨word, word.length⟩ := nameChars_word letters (.cons (by decide))
  unfold ident at hs
  split at hs
  · rw [name, chars] at hs
    dsimp only at hs
    split at hs
    · cases hs
    · exact (Except.ok.inj hs).symm
  · split at hs <;> cases hs

/-- A pseudo that is read ends before the negation, or is a negation that holds it. -/
theorem QuotedAhead.pseudo (h : QuotedAhead text n) {s : Scan Pseudo} (hs : pseudo pos text = .ok s) :
    s.size ≤ n ∨ ∃ start size m, s.value = .negation start size ∧ QuotedAhead ((text.drop start).take size) m := by
  -- a name, an opening parenthesis and an argument
  have call {name : Scan String} {rest : List Char} {size : Nat} (found : ident .pseudo pos text = .ok name)
      (opening : text.drop name.size = '(' :: rest) (closing : argumentSize 0 none rest = some size) :
      name.size + 1 + size + 1 ≤ n ∨ ∃ m, QuotedAhead (rest.take size) m := by
    have short := (h.barred.ident found).2
    have behind := h.drop short
    rw [opening] at behind
    obtain ⟨m, total, inside⟩ := behind.tail (by decide)
    rcases inside.argument closing with before | within
    · exact .inl (by omega)
    · exact .inr ⟨m, within⟩
  cases pseudo_form hs with
  | @element rest name simple found element =>
      refine .inl ?_
      cases n with
      | zero =>
          obtain ⟨word, quote, more, rfl, same, -⟩ := h.here
          obtain rfl := ident_call (not_word same).2 found
          rw [List.drop_left] at element
          exact absurd rfl (pseudoElement_name element).2
      | succ m =>
          have tail : QuotedAhead rest m := h.drop (k := 1) (by omega)
          have short := (tail.barred.ident found).2
          dsimp only
          omega
  | @negation text rest name size found opening closing =>
      rcases call found opening closing with before | ⟨m, within⟩
      · exact .inl before
      · refine .inr ⟨_, _, m, rfl, ?_⟩
        rwa [← List.drop_drop, opening]
  | @function text rest name size simple found opening closing other function =>
      rcases call found opening closing with before | ⟨m, within⟩
      · exact .inl before
      · rw [(h.barred.ident found).1] at function
        have bare := (pseudoFunction_sound function).argument _ rfl ':' (List.mem_of_getElem? within.barred.colon)
        exact absurd bare (by decide)
  | plain found => exact .inl (h.barred.ident found).2

/-- No argument of a negation begins with a quote. -/
theorem negated_quote {rest : List Char} {quote : Char} (quoted : quote = '"' ∨ quote = '\'') {simple : Simple} :
    negated pos (quote :: rest) ≠ .ok simple := by
  intro hs
  obtain ⟨-, found, read, -, -⟩ := negated_form hs
  have dark : Text.isBlank quote = false := by rcases quoted with rfl | rfl <;> decide
  obtain ⟨more, trimmed⟩ := Text.trim_cons dark rest
  rw [trimmed] at read
  obtain ⟨start, more', type, simples, some, -⟩ := compound_form read
  have starts : startsIdent (quote :: more) = false := by rcases quoted with rfl | rfl <;> rfl
  have none : start = ⟨[], 0⟩ := by
    rw [typeSelector, starts, if_neg, if_neg Bool.false_ne_true] at type
    · exact (Except.ok.inj type).symm
    · rcases quoted with rfl | rfl <;> simp
  subst none
  rw [List.drop_zero] at simples
  cases simples_form simples with
  | stop => exact some rfl
  | _ => rcases quoted with same | same <;> cases same

/-- The quoted negation is read as a negation. -/
theorem pseudo_quoted {word more : List Char} {quote : Char} (name : lower word = "not")
    (quoted : quote = '"' ∨ quote = '\'') {s : Scan Pseudo} (hs : pseudo pos (word ++ '(' :: quote :: more) = .ok s) :
    ∃ size, s.value = .negation (word.length + 1) (size + 1) := by
  obtain ⟨length, letters⟩ := not_word name
  have start : (word ++ '(' :: quote :: more).head? ≠ some ':' := by
    cases word with
    | nil => cases length
    | cons c word =>
        intro colon
        obtain rfl := Option.some.inj colon
        exact absurd (letters _ List.mem_cons_self) (by decide)
  have found {s : Scan String} (hs : ident .pseudo pos (word ++ '(' :: quote :: more) = .ok s) := ident_call letters hs
  generalize same : word ++ '(' :: quote :: more = text at hs start
  rw [same] at found
  cases pseudo_form hs with
  | element => exact absurd rfl start
  | @negation text rest s size read opening closing =>
      obtain rfl := found read
      rw [← same, List.drop_left] at opening
      obtain rfl := (List.cons.inj opening).2
      rw [argumentSize.eq_def] at closing
      dsimp only at closing
      rw [if_pos quoted] at closing
      obtain ⟨size, -, rfl⟩ := Option.map_eq_some_iff.mp closing
      exact ⟨size, by rw [Nat.add_comm 1]⟩
  | function read opening closing other =>
      obtain rfl := found read
      exact absurd name other
  | plain read closed =>
      obtain rfl := found read
      rw [← same, List.drop_left] at closed
      exact absurd rfl closed

/-! Compounds. -/

/-- Simple selectors in texts shorter than that are read up to the negation at most. -/
def SimplesShort (length : Nat) : Prop := ∀ text n, text.length < length → QuotedAhead text n → ∀ pos s,
  simples pos text = .ok s → s.size ≤ n

theorem SimplesShort.compound (ih : SimplesShort (text.length + 1)) (h : QuotedAhead text n) {s : Scan Compound}
    (hs : compound pos text = .ok s) : s.size ≤ n := by
  obtain ⟨start, more, front, back, -, rfl⟩ := compound_form hs
  have shorter : (text.drop start.size).length < text.length + 1 := by
    rw [List.length_drop]
    omega
  exact h.next (h.barred.typeSelector front) fun h => ih _ _ shorter h _ _ back

/-- An argument that holds the negation is no argument of one. -/
theorem SimplesShort.negated (ih : SimplesShort (text.length + 1)) (h : QuotedAhead text n) {simple : Simple} :
    negated pos text ≠ .ok simple := by
  intro hs
  obtain ⟨visible, found, read, done, -⟩ := negated_form hs
  obtain ⟨m, inside⟩ := h.trim
  have shorter : SimplesShort ((Text.trim text).length + 1) := fun text n size =>
    ih text n (size.trans_le (Nat.succ_le_succ (Text.length_trim_le _)))
  have short := shorter.compound inside read
  have colon := (List.getElem?_eq_some_iff.mp inside.barred.colon).1
  have whole := List.drop_eq_nil_iff.mp done
  omega

theorem simplesShort (length : Nat) : SimplesShort length := by
  -- on the length, since the argument of a negation is taken from the middle of the text
  induction length with
  | zero => exact fun _ _ size => absurd size (Nat.not_lt_zero _)
  | succ length ih =>
      intro text n size h pos s hs
      have behind {c : Char} {rest : List Char} {m k : Nat} (size : (c :: rest).length < length + 1)
          (inside : QuotedAhead rest m) (hk : k ≤ m) {pos : Nat} {more : Scan Compound}
          (tail : simples pos (rest.drop k) = .ok more) : 1 + k + more.size ≤ m + 1 := by
        have shorter : (rest.drop k).length < length := by
          rw [List.length_cons] at size
          rw [List.length_drop]
          omega
        have total := inside.next hk fun h => ih _ _ shorter h _ _ tail
        omega
      cases simples_form hs with
      | stop => exact Nat.zero_le n
      | @pseudo rest simple k more read tail =>
          cases n with
          | zero =>
              obtain ⟨word, quote, more, rfl, name, quoted⟩ := h.here
              obtain ⟨size, other⟩ := pseudo_quoted name quoted read
              cases other
          | succ m =>
              have inside : QuotedAhead rest m := h.drop (k := 1) (by omega)
              rcases inside.pseudo read with short | ⟨_, _, _, other, -⟩
              · exact behind size inside short tail
              · cases other
      | @negation rest simple start width k more read argument tail =>
          cases n with
          | zero =>
              obtain ⟨word, quote, more, rfl, name, quoted⟩ := h.here
              obtain ⟨size, same⟩ := pseudo_quoted name quoted read
              obtain ⟨rfl, rfl⟩ := Pseudo.negation.inj same
              rw [← List.drop_drop, List.drop_left] at argument
              exact absurd argument (negated_quote quoted)
          | succ m =>
              have inside : QuotedAhead rest m := h.drop (k := 1) (by omega)
              rcases inside.pseudo read with short | ⟨_, _, _, same, within⟩
              · exact behind size inside short tail
              · obtain ⟨rfl, rfl⟩ := Pseudo.negation.inj same
                refine absurd argument (SimplesShort.negated (fun text n fewer => ih text n ?_) within)
                rw [List.length_cons] at size
                rw [List.length_take, List.length_drop] at fewer
                omega
      | className found tail =>
          obtain ⟨m, rfl, inside⟩ := h.tail (by decide)
          exact behind size inside (inside.barred.ident found).2 tail
      | id found tail =>
          obtain ⟨m, rfl, inside⟩ := h.tail (by decide)
          exact behind size inside (inside.barred.name found).2 tail
      | nesting tail =>
          obtain ⟨m, rfl, inside⟩ := h.tail (by decide)
          exact behind (k := 0) size inside (Nat.zero_le m) tail
      | hasAttribute found tail =>
          obtain ⟨m, rfl, inside⟩ := h.tail (by decide)
          exact behind size inside (inside.barred.attributeSelector found) tail

/-! Selectors. -/

theorem QuotedAhead.compound (h : QuotedAhead text n) {s : Scan Compound} (hs : compound pos text = .ok s) : s.size ≤ n :=
  (simplesShort _).compound h hs

theorem links_ahead {length : Nat} (size : text.length < length) (h : QuotedAhead text n)
    {s : Scan (List (Combinator × Compound))} (hs : links pos text = .ok s) :
    s.size ≤ n ∧ ∀ c, (text.drop s.size).head? = some c → c = ',' := by
  induction length generalizing text n pos s with
  | zero => cases size
  | succ length ih =>
      have blank := h.barred.spaces
      cases links_form hs with
      | stop found => exact ⟨blank, joint_none found⟩
      | @link sign m k parts more found same some _ read tail =>
          have front : k ≤ n := by
            rw [same]
            refine h.next (h.next blank fun h => ?_) fun h => h.barred.spaces
            refine h.barred.le_of_all fun c hc => ?_
            rintro rfl
            exact absurd ((passes_joint found).2 ':' hc) (by decide)
          have covered := h.next front fun h => h.compound read
          have progress := joint_progress found
          rw [bne_iff_ne] at progress
          have shorter : (text.drop (k + parts.size)).length < length := by
            have inside := List.length_pos_iff.mpr some
            simp only [List.length_drop] at inside ⊢
            omega
          obtain ⟨behind, ends⟩ := ih shorter (h.drop covered) tail
          rw [List.drop_drop] at ends
          exact ⟨h.next covered fun _ => behind, ends⟩

theorem QuotedAhead.complex (h : QuotedAhead text n) {s : Scan Complex} (hs : complex pos text = .ok s) :
    s.size ≤ n ∧ ∀ c, (text.drop s.size).head? = some c → c = ',' := by
  obtain ⟨first, more, read, tail, rfl⟩ := complex_form hs
  have short := h.compound read
  obtain ⟨behind, ends⟩ := links_ahead (Nat.lt_succ_self _) (h.drop short) tail
  rw [List.drop_drop] at ends
  exact ⟨h.next short fun _ => behind, ends⟩

theorem selectors_ahead {length : Nat} (size : text.length < length) (h : QuotedAhead text n) {list : List Complex} :
    selectors pos text ≠ .ok list := by
  induction length generalizing text n pos list with
  | zero => cases size
  | succ length ih =>
      intro hs
      have inside := (List.getElem?_eq_some_iff.mp h.barred.colon).1
      have blank := h.barred.spaces
      cases selectors_form hs with
      | last found done =>
          have short := h.next blank fun h => (h.complex found).1
          have whole := List.drop_eq_nil_iff.mp done
          omega
      | @more first c rest list found goesOn read =>
          have short := h.next blank fun h => (h.complex found).1
          obtain rfl : c = ',' := by
            refine ((h.drop blank).complex found).2 c ?_
            rw [List.drop_drop, goesOn]
            rfl
          have later := h.drop short
          rw [goesOn] at later
          obtain ⟨m, -, behind⟩ := later.tail (by decide)
          have fewer := congrArg List.length goesOn
          rw [List.length_drop, List.length_cons] at fewer
          exact ih (by omega) behind read

/-- A text with a quoted negation is no selector. -/
theorem QuotedAhead.rejected (h : QuotedAhead text n) : ∃ rejection, selectors pos text = .error rejection := by
  cases read : selectors pos text with
  | error rejection => exact ⟨rejection, rfl⟩
  | ok list => exact absurd read (selectors_ahead (Nat.lt_succ_self _) h)

end
end StyleAudit.Selector
