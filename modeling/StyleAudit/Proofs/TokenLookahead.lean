import StyleAudit.Proofs.Lookahead
/-!
Tokens in front of a text that yields. Numerals, addresses and names are read as before when what stands behind them goes
on with less, and so is every token that does not depend on what it does not hold.
-/
namespace StyleAudit.Css

open Text (Scan)

theorem startsPoint_cons {c : Char} {rest : List Char} :
    startsPoint (c :: rest) = true ↔ c = '.' ∧ Numeral.startsDigit rest = true := by
  unfold startsPoint
  split
  · next same =>
      obtain ⟨rfl, rfl⟩ := List.cons.inj same
      exact ⟨fun digit => ⟨rfl, digit⟩, fun both => both.2⟩
  · next other => exact ⟨nofun, fun both => absurd (by rw [both.1]) (other rest)⟩

theorem takeFraction_point {text : List Char} (h : startsPoint text = true) :
    Numeral.takeFraction text = (some (text.tail.takeWhile Char.isDigit), text.tail.dropWhile Char.isDigit) := by
  cases text with
  | nil => cases h
  | cons c rest =>
      obtain ⟨rfl, digit⟩ := startsPoint_cons.mp h
      rw [Numeral.takeFraction, if_pos digit, List.tail_cons]

theorem takeFraction_none {text : List Char} (h : startsPoint text = false) :
    Numeral.takeFraction text = (none, text) := by
  unfold Numeral.takeFraction
  split
  · next rest =>
      have point : Numeral.startsDigit rest = false := h
      rw [point, if_neg Bool.false_ne_true]
  · rfl

theorem length_dropWhile_le (p : Char → Bool) (text : List Char) : (text.dropWhile p).length ≤ text.length :=
  (List.dropWhile_suffix p).length_le

theorem length_dropWhile_digits {text : List Char} (h : Numeral.startsDigit text = true) :
    (text.dropWhile Char.isDigit).length < text.length := by
  cases text with
  | nil => cases h
  | cons c rest =>
      have digit : c.isDigit = true := h
      rw [List.dropWhile_cons_of_pos digit]
      exact Nat.lt_succ_of_le (length_dropWhile_le _ _)

/-- What is left of a text has its end in common with it. -/
theorem inside_of_suffix {front behind rest : List Char} (h : rest <:+ front ++ behind)
    (size : behind.length ≤ rest.length) : ∃ front', rest = front' ++ behind := by
  obtain ⟨front', same⟩ := List.suffix_of_suffix_length_le (List.suffix_append front behind) h size
  exact ⟨front', same.symm⟩

theorem numericToken_size (text : List Char) :
    (Numeral.ofPrefix text).text.length ≤ (numericToken text).size ∧
      (startsIdent (text.drop (Numeral.ofPrefix text).text.length) = true →
        (Numeral.ofPrefix text).text.length < (numericToken text).size) := by
  unfold numericToken
  simp only
  split
  · next unit =>
      have := name_size_of_startsIdent unit
      simp only [Scan.behind_size]
      omega
  · next plain =>
      refine ⟨?_, fun unit => absurd unit plain⟩
      split <;> simp only <;> omega

theorem urlToken_quoted (spelling : List Char) {text : List Char} {quote : Char}
    (first : (text.dropWhile isSpace).head? = some quote) (mark : quote = '"' ∨ quote = '\'') :
    urlToken spelling text = ⟨.function (String.ofList spelling), 0⟩ := by
  obtain ⟨rest, same⟩ := List.head?_eq_some_iff.mp first
  unfold urlToken
  rw [same]
  rcases mark with rfl | rfl <;> rfl

theorem urlToken_size (spelling : List Char) {text : List Char}
    (plain : ¬ ∃ quote, (text.dropWhile isSpace).head? = some quote ∧ (quote = '"' ∨ quote = '\'')) :
    (urlToken spelling text).size = spaces text + (urlBody (text.dropWhile isSpace)).size := by
  unfold urlToken
  split
  · next same => exact absurd ⟨_, by rw [same]; rfl, .inl rfl⟩ plain
  · next same => exact absurd ⟨_, by rw [same]; rfl, .inr rfl⟩ plain
  · rw [Scan.behind_size]

/-- Behind `url(` it matters how many spaces there are, with which character the address begins, and how it is read. -/
theorem urlToken_congr (spelling : List Char) {text text' : List Char} (before : spaces text = spaces text')
    (first : (text.dropWhile isSpace).head? = (text'.dropWhile isSpace).head?)
    (body : urlBody (text.dropWhile isSpace) = urlBody (text'.dropWhile isSpace)) :
    urlToken spelling text = urlToken spelling text' := by
  unfold urlToken
  rw [before]
  generalize text.dropWhile isSpace = address at first body
  generalize text'.dropWhile isSpace = address' at first body
  cases address with
  | nil =>
      obtain rfl : address' = [] := List.head?_eq_none_iff.mp first.symm
      rfl
  | cons c rest =>
      obtain ⟨rest', rfl⟩ := List.head?_eq_some_iff.mp first.symm
      split
      · next same =>
          obtain rfl := (List.cons.inj same).1
          rfl
      · next same =>
          obtain rfl := (List.cons.inj same).1
          rfl
      · next double single =>
          split
          · next same => exact (double rest ((List.cons.inj same).1 ▸ rfl)).elim
          · next same => exact (single rest ((List.cons.inj same).1 ▸ rfl)).elim
          · rw [body]

theorem starts_eq (text : List Char) : Numeral.starts text =
    (Numeral.startsDigit (Numeral.takeSign text).2 || startsPoint (Numeral.takeSign text).2) := by
  unfold Numeral.starts
  generalize (Numeral.takeSign text).2 = rest
  split
  · rfl
  · next other =>
      have point : startsPoint rest = false := by
        unfold startsPoint
        split
        · next digits => exact (other digits rfl).elim
        · rfl
      rw [point, Bool.or_false]

/-- A text begins with a number exactly if its numeral has a digit in front of its exponent. -/
theorem starts_iff {text : List Char} : Numeral.starts text = true ↔
    (Numeral.ofPrefix text).whole ≠ [] ∨ (Numeral.ofPrefix text).fraction ≠ none := by
  rw [starts_eq, Bool.or_eq_true]
  simp only [Numeral.ofPrefix]
  generalize (Numeral.takeSign text).2 = rest
  cases rest with
  | nil => simp [Numeral.startsDigit, startsPoint, Numeral.takeFraction]
  | cons c rest =>
      cases digit : c.isDigit with
      | true => simp [Numeral.startsDigit, digit]
      | false =>
          rw [List.takeWhile_cons, List.dropWhile_cons, digit]
          cases point : startsPoint (c :: rest) with
          | true => simp [takeFraction_point point]
          | false => simp [takeFraction_none point, Numeral.startsDigit, digit]

theorem identToken_opens {text rest : List Char} (h : text.drop (name text).size = '(' :: rest) :
    identToken text = if (name text).value.map Char.toLower = ['u', 'r', 'l']
      then (urlToken (name text).value rest).behind ((name text).size + 1) id
      else ⟨.function (String.ofList (name text).value), (name text).size + 1⟩ := by
  unfold identToken
  simp only [h]

theorem identToken_plain {text : List Char} (h : (text.drop (name text).size).head? ≠ some '(') :
    identToken text = ⟨.ident (String.ofList (name text).value), (name text).size⟩ := by
  unfold identToken
  simp only
  split
  · next paren => exact absurd (congrArg List.head? paren) h
  · rfl

theorem toLower_ofList_eq {spelling : List Char} :
    (String.ofList spelling).toLower = "url" ↔ spelling.map Char.toLower = ['u', 'r', 'l'] := by
  rw [← String.toList_inj, String.toLower, String.toList_map, String.toList_ofList]
  rfl

theorem escapable_congr {text other : List Char} (h : text.head? = other.head?) : escapable text = escapable other := by
  cases text <;> cases other <;> cases h <;> rfl

theorem eq_of_prefix {word front behind : List Char} (h : word <+: front ++ behind) (length : front.length = word.length) :
    word = front :=
  (List.prefix_of_prefix_length_le h (List.prefix_append _ _) (Nat.le_of_eq length.symm)).eq_of_length length.symm

/-! The equations by which a token is read, in the order in which they are tried. -/

/-- A character that is no token by itself and begins neither white space nor a string. -/
structure IsPlain (c : Char) : Prop where
  mark : punctuation? c = none
  space : ¬ isSpace c = true
  quote : ¬ (c = '"' ∨ c = '\'')

section
variable {c : Char} {rest : List Char}

theorem token_mark {kind : TokenKind} (mark : punctuation? c = some kind) : token c rest = ⟨kind, 1⟩ := by
  unfold token
  rw [mark]

theorem token_space (mark : punctuation? c = none) (space : isSpace c = true) :
    token c rest = ⟨.whitespace, 1 + spaces rest⟩ := by
  unfold token
  rw [mark]
  exact if_pos space

theorem token_quote (quote : c = '"' ∨ c = '\'') : token c rest = stringToken c rest := by
  rcases quote with rfl | rfl <;> rfl

theorem token_number (plain : IsPlain c) (number : Numeral.starts (c :: rest) = true) :
    token c rest = numericToken (c :: rest) := by
  unfold token
  rw [plain.mark]
  simp only
  rw [if_neg plain.space, if_neg plain.quote, if_pos number]

theorem token_closing (closing : ['-', '>'] <+: rest) : token '-' rest = ⟨.commentClose, 3⟩ := by
  obtain ⟨behind, rfl⟩ := closing
  rfl

theorem token_opening (opening : ['!', '-', '-'] <+: rest) : token '<' rest = ⟨.commentOpen, 4⟩ := by
  obtain ⟨behind, rfl⟩ := opening
  rfl

theorem token_hash (hash : startsName rest = true) : token '#' rest = hashToken rest := by
  have none : ¬ Numeral.starts ('#' :: rest) = true := nofun
  unfold token
  simp [punctuation?, isSpace, none, hash]

theorem token_ident (plain : IsPlain c) (number : ¬ Numeral.starts (c :: rest) = true)
    (closing : ¬ (c = '-' ∧ ['-', '>'] <+: rest)) (ident : startsIdent (c :: rest) = true) :
    token c rest = identToken (c :: rest) := by
  have others : ¬ (c = '<' ∨ c = '#' ∨ c = '@') := by
    rintro (rfl | rfl | rfl) <;> cases ident
  unfold token
  rw [plain.mark]
  simp only
  rw [if_neg plain.space, if_neg plain.quote, if_neg number, if_neg closing, if_neg fun opens => others (.inl opens.1),
    if_neg fun hash => others (.inr (.inl hash.1)), if_neg fun keyword => others (.inr (.inr keyword.1)), if_pos ident]

theorem token_delim (plain : IsPlain c) (number : ¬ Numeral.starts (c :: rest) = true)
    (closing : ¬ (c = '-' ∧ ['-', '>'] <+: rest)) (opening : ¬ (c = '<' ∧ ['!', '-', '-'] <+: rest))
    (hash : ¬ (c = '#' ∧ startsName rest = true)) (keyword : ¬ (c = '@' ∧ startsIdent rest = true))
    (ident : ¬ startsIdent (c :: rest) = true) : token c rest = ⟨.delim c, 1⟩ := by
  unfold token
  rw [plain.mark]
  simp only
  rw [if_neg plain.space, if_neg plain.quote, if_neg number, if_neg closing, if_neg opening, if_neg hash, if_neg keyword,
    if_neg ident]

theorem token_keyword (ident : startsIdent rest = true) :
    token '@' rest = (name rest).behind 1 fun spelling => .atKeyword (String.ofList spelling) := by
  have none : ¬ Numeral.starts ('@' :: rest) = true := nofun
  unfold token
  simp [punctuation?, isSpace, none, ident]

end

section
variable {text other : List Char} (h : Yields text other)
include h

/-! Numerals. -/

theorem Yields.takeSign {front front' : List Char} {sign : Option Char}
    (taken : Numeral.takeSign (front ++ other) = (sign, front' ++ other)) :
    Numeral.takeSign (front ++ text) = (sign, front' ++ text) := by
  cases front with
  | nil =>
      obtain ⟨c, rest, rfl⟩ := List.exists_cons_of_ne_nil h.nonempty
      rw [List.nil_append, Numeral.takeSign] at taken
      split at taken
      · have := congrArg (List.length ∘ Prod.snd) taken
        simp only [Function.comp_apply, List.length_append, List.length_cons] at this
        omega
      · next unsigned =>
          obtain ⟨rfl, rest⟩ := Prod.mk.inj taken
          obtain rfl : front' = [] := by simpa using congrArg List.length rest
          cases text with
          | nil => rfl
          | cons d rest' =>
              have unsigned' : ¬ (d = '+' ∨ d = '-') := by
                intro signed
                obtain ⟨e, first, sign⟩ := h.head (p := fun c => c == '+' || c == '-') (by decide) rfl (by simpa using signed)
                obtain rfl := Option.some.inj first
                exact unsigned (by simpa using sign)
              exact if_neg unsigned'
  | cons c front =>
      rw [List.cons_append, Numeral.takeSign] at taken ⊢
      split at taken
      · next signed =>
          obtain ⟨rfl, rest⟩ := Prod.mk.inj taken
          rw [if_pos signed, List.append_cancel_right rest]
      · next unsigned =>
          obtain ⟨rfl, rest⟩ := Prod.mk.inj taken
          obtain rfl : c :: front = front' := List.append_cancel_right rest
          rw [if_neg unsigned, List.cons_append]

theorem Yields.startsDigit (starts : Numeral.startsDigit text = true) : Numeral.startsDigit other = true := by
  cases text with
  | nil => cases starts
  | cons c rest =>
      obtain ⟨d, first, digit⟩ := h.head (p := Char.isDigit) (by decide) rfl starts
      obtain ⟨rest', rfl⟩ := List.head?_eq_some_iff.mp first
      exact digit

/-- A sign and a digit are in front of a text that yields only where they were before. -/
theorem Yields.signedDigit {front : List Char} (starts : Numeral.startsDigit (Numeral.takeSign (front ++ text)).2 = true) :
    Numeral.startsDigit (Numeral.takeSign (front ++ other)).2 = true := by
  cases front with
  | nil => exact h.sign starts
  | cons c front =>
      rw [List.cons_append, Numeral.takeSign] at starts ⊢
      split at starts
      · next signed =>
          rw [if_pos signed]
          cases front with
          | nil => exact h.startsDigit starts
          | cons d front => exact starts
      · next unsigned =>
          rw [if_neg unsigned]
          exact starts

theorem Yields.startsPoint {front : List Char} (starts : startsPoint (front ++ text) = true) :
    startsPoint (front ++ other) = true := by
  cases front with
  | nil => exact h.point starts
  | cons c front =>
      obtain ⟨rfl, digit⟩ := startsPoint_cons.mp starts
      refine startsPoint_cons.mpr ⟨rfl, ?_⟩
      cases front with
      | nil => exact h.startsDigit digit
      | cons d front => exact digit

theorem Yields.takeFraction {front front' : List Char} {fraction : Option (List Char)}
    (taken : Numeral.takeFraction (front ++ other) = (fraction, front' ++ other)) :
    Numeral.takeFraction (front ++ text) = (fraction, front' ++ text) := by
  by_cases point : Css.startsPoint (front ++ other) = true
  · rw [takeFraction_point point] at taken
    obtain ⟨rfl, rest⟩ := Prod.mk.inj taken
    match front with
    | [] =>
        obtain ⟨c, more, rfl⟩ := List.exists_cons_of_ne_nil h.nonempty
        have := length_dropWhile_le Char.isDigit more
        rw [List.nil_append, List.tail_cons] at rest
        rw [rest, List.length_append, List.length_cons] at this
        omega
    | [c] =>
        obtain ⟨rfl, digit⟩ := startsPoint_cons.mp point
        have digit : Numeral.startsDigit other = true := digit
        have := length_dropWhile_digits digit
        rw [List.singleton_append, List.tail_cons] at rest
        rw [rest, List.length_append] at this
        omega
    | c :: d :: front =>
        have point' : Css.startsPoint (c :: d :: front ++ text) = true :=
          startsPoint_cons.mpr ⟨(startsPoint_cons.mp point).1, (startsPoint_cons.mp point).2⟩
        have rest : (d :: front ++ other).dropWhile Char.isDigit = front' ++ other := rest
        obtain ⟨run, rest⟩ := h.dropWhile (by decide) rest
        rw [takeFraction_point point', List.cons_append, List.tail_cons, run, rest]
        rfl
  · have point' : ¬ Css.startsPoint (front ++ text) = true := fun starts => point (h.startsPoint starts)
    rw [takeFraction_none (Bool.eq_false_iff.mpr point)] at taken
    obtain ⟨rfl, rest⟩ := Prod.mk.inj taken
    rw [takeFraction_none (Bool.eq_false_iff.mpr point'), List.append_cancel_right rest]

theorem Yields.takeExponent {front front' : List Char} {exponent : Option Exponent}
    (stop : front = [] → startsIdent other = false)
    (taken : Numeral.takeExponent (front ++ other) = (exponent, front' ++ other)) :
    Numeral.takeExponent (front ++ text) = (exponent, front' ++ text) := by
  cases front with
  | nil =>
      have plain (X : List Char) (hX : startsIdent X = false) : Numeral.takeExponent X = (none, X) := by
        cases X with
        | nil => rfl
        | cons c rest =>
            have letter : ¬ (c = 'e' ∨ c = 'E') := by
              rintro (rfl | rfl) <;> cases hX
            rw [Numeral.takeExponent, if_neg letter]
      have stop' : startsIdent text = false := by
        rw [Bool.eq_false_iff]
        intro starts
        exact absurd (h.ident starts) (Bool.eq_false_iff.mp (stop rfl))
      rw [List.nil_append, plain other (stop rfl)] at taken
      obtain ⟨rfl, rest⟩ := Prod.mk.inj taken
      obtain rfl : front' = [] := by simpa using congrArg List.length rest
      exact plain text stop'
  | cons c front =>
      rw [List.cons_append, Numeral.takeExponent] at taken ⊢
      split at taken
      · next letter =>
          rw [if_pos letter]
          simp only at taken ⊢
          split at taken
          · next digit =>
              obtain ⟨rfl, rest⟩ := Prod.mk.inj taken
              have short : other.length ≤ (Numeral.takeSign (front ++ other)).2.length := by
                have := length_dropWhile_digits digit
                rw [rest, List.length_append] at this
                omega
              obtain ⟨front₁, digits⟩ := inside_of_suffix ⟨_, Numeral.takeSign_append _⟩ short
              rw [h.takeSign (Prod.ext rfl digits)]
              simp only
              rw [digits] at digit rest ⊢
              cases front₁ with
              | nil =>
                  have := length_dropWhile_digits digit
                  rw [List.nil_append] at this rest
                  rw [rest, List.length_append] at this
                  omega
              | cons d front₁ =>
                  obtain ⟨run, rest⟩ := h.dropWhile (by decide) rest
                  rw [if_pos (show Numeral.startsDigit (d :: front₁ ++ text) = true from digit), run, rest]
          · next noDigit =>
              obtain ⟨rfl, rest⟩ := Prod.mk.inj taken
              obtain rfl : c :: front = front' := List.append_cancel_right rest
              rw [if_neg fun digit => noDigit (h.signedDigit digit), List.cons_append]
      · next plain =>
          obtain ⟨rfl, rest⟩ := Prod.mk.inj taken
          obtain rfl : c :: front = front' := List.append_cancel_right rest
          rw [if_neg plain, List.cons_append]

/-- A numeral that ends in the front ends there before any text that yields, unless the text goes on with it as with a
name. -/
theorem Yields.ofPrefix {front : List Char} (size : (Numeral.ofPrefix (front ++ other)).text.length ≤ front.length)
    (stop : (Numeral.ofPrefix (front ++ other)).text.length = front.length → startsIdent other = false) :
    Numeral.ofPrefix (front ++ text) = Numeral.ofPrefix (front ++ other) := by
  have whole := Numeral.takeSign_append (front ++ other)
  rcases taken₁ : Numeral.takeSign (front ++ other) with ⟨sign, rest₁⟩
  rcases taken₃ : Numeral.takeFraction (rest₁.dropWhile Char.isDigit) with ⟨fraction, rest₃⟩
  rcases taken₄ : Numeral.takeExponent rest₃ with ⟨exponent, rest₄⟩
  have digits := List.takeWhile_append_dropWhile (p := Char.isDigit) (l := rest₁)
  have point := Numeral.takeFraction_append (rest₁.dropWhile Char.isDigit)
  have letter := Numeral.takeExponent_append rest₃
  rw [taken₁] at whole
  rw [taken₃] at point
  rw [taken₄] at letter
  simp only [Numeral.ofPrefix, Numeral.text, taken₁, taken₃, taken₄, List.length_append] at size stop ⊢ whole digits point letter
  -- the rest behind each part reaches back into the front
  have suffix₁ : rest₁ <:+ front ++ other := ⟨_, whole⟩
  have suffix₂ := (List.dropWhile_suffix Char.isDigit).trans suffix₁
  have suffix₃ : rest₃ <:+ front ++ other := .trans ⟨_, point⟩ suffix₂
  have suffix₄ : rest₄ <:+ front ++ other := .trans ⟨_, letter⟩ suffix₃
  have lengths := congrArg List.length whole
  have lengths₁ := congrArg List.length digits
  have lengths₂ := congrArg List.length point
  have lengths₃ := congrArg List.length letter
  simp only [List.length_append] at lengths lengths₁ lengths₂ lengths₃
  obtain ⟨front₁, rfl⟩ := inside_of_suffix suffix₁ (by omega)
  obtain ⟨front₂, rest₂⟩ := inside_of_suffix suffix₂ (by omega)
  obtain ⟨front₃, rfl⟩ := inside_of_suffix suffix₃ (by omega)
  obtain ⟨front₄, rfl⟩ := inside_of_suffix suffix₄ (by omega)
  obtain ⟨run, rest₂'⟩ := h.dropWhile (by decide) rest₂
  rw [rest₂] at taken₃
  have stop : front₃ = [] → startsIdent other = false := by
    rintro rfl
    apply stop
    simp only [List.length_append, List.length_nil] at lengths₃ lengths₂ lengths₁ lengths
    omega
  simp only [h.takeSign taken₁, run, rest₂', h.takeFraction taken₃, h.takeExponent stop taken₄]

theorem Yields.ofPrefix_numericToken {front : List Char}
    (size : (Css.numericToken (front ++ other)).size = front.length) :
    Numeral.ofPrefix (front ++ text) = Numeral.ofPrefix (front ++ other) := by
  obtain ⟨inside, unit⟩ := numericToken_size (front ++ other)
  rw [size] at inside unit
  refine h.ofPrefix inside fun full => ?_
  rw [Bool.eq_false_iff]
  intro ident
  rw [full, List.drop_left] at unit
  exact absurd (unit ident) (Nat.lt_irrefl _)

theorem Yields.numericToken {front : List Char} (size : (Css.numericToken (front ++ other)).size = front.length) :
    Css.numericToken (front ++ text) = Css.numericToken (front ++ other) := by
  have same := h.ofPrefix_numericToken size
  have inside := (numericToken_size (front ++ other)).1
  rw [size] at inside
  unfold Css.numericToken at size ⊢
  simp only [same, List.drop_append_of_le_length inside] at size ⊢
  have left := List.length_drop (i := (Numeral.ofPrefix (front ++ other)).text.length) (l := front)
  generalize (Numeral.ofPrefix (front ++ other)).text.length = n at inside size left ⊢
  generalize front.drop n = front' at size left ⊢
  split at size
  · next ident =>
      rw [Scan.behind_size] at size
      have short : (Css.name (front' ++ other)).size = front'.length := by omega
      have some : front' ≠ [] := by
        rintro rfl
        have := name_size_of_startsIdent ident
        rw [List.length_nil] at short
        omega
      rw [h.startsIdent_iff some short, h.name short, if_pos ident, if_pos ident]
  · next plain =>
      rw [if_neg plain]
      cases front' with
      | nil =>
          have plain' : ¬ startsIdent ([] ++ text) = true := fun ident => plain (h.ident ident)
          rw [if_neg plain']
          rw [List.length_nil] at left
          split at size
          · simp only at size
            omega
          · next unlike =>
              split
              · next rest percent =>
                  rw [List.nil_append] at percent
                  obtain ⟨rest', rfl⟩ := List.head?_eq_some_iff.mp (h.mark (by decide) (congrArg List.head? percent))
                  exact absurd rfl (unlike rest')
              · rfl
      | cons d front' =>
          rw [List.length_cons] at left
          split at size
          · next rest percent =>
              obtain rfl := (List.cons.inj percent).1
              rfl
          · simp only at size
            omega

/-! Tokens. -/

theorem Yields.urlToken {spelling front : List Char}
    (size : (Css.urlToken spelling (front ++ other)).size = front.length)
    (quoted : (Css.urlToken spelling (front ++ other)).value = .function (String.ofList spelling) →
      (text.dropWhile isSpace).head? = (other.dropWhile isSpace).head?) :
    Css.urlToken spelling (front ++ text) = Css.urlToken spelling (front ++ other) := by
  by_cases mark : ∃ quote, ((front ++ other).dropWhile isSpace).head? = some quote ∧ (quote = '"' ∨ quote = '\'')
  · obtain ⟨quote, first, mark⟩ := mark
    have whole := urlToken_quoted spelling first mark
    rw [whole] at size quoted ⊢
    obtain rfl : front = [] := List.length_eq_zero_iff.mp size.symm
    exact urlToken_quoted spelling ((quoted rfl).trans first) mark
  · rw [urlToken_size spelling mark] at size
    have short : spaces (front ++ other) ≤ front.length := by omega
    obtain ⟨front', rest, length⟩ := dropWhile_inside short
    obtain ⟨run, rest'⟩ := h.dropWhile (by decide) rest
    rw [rest] at size
    have length : front.length = spaces (front ++ other) + front'.length := length
    have body : (Css.urlBody (front' ++ other)).size = front'.length := by omega
    have some : front' ≠ [] := by
      rintro rfl
      have := urlBody_size_pos h.nonempty
      rw [List.nil_append, List.length_nil] at body
      omega
    obtain ⟨c, front', rfl⟩ := List.exists_cons_of_ne_nil some
    refine urlToken_congr spelling (by rw [spaces, run, spaces]) (by rw [rest, rest']; rfl) ?_
    rw [rest, rest', h.urlBody body]

theorem Yields.identToken {front : List Char} (ident : startsIdent (front ++ other) = true)
    (size : (Css.identToken (front ++ other)).size = front.length)
    (quoted : ∀ spelling, (Css.identToken (front ++ other)).value = .function spelling → spelling.toLower = "url" →
      (text.dropWhile isSpace).head? = (other.dropWhile isSpace).head?) :
    startsIdent (front ++ text) = true ∧ Css.identToken (front ++ text) = Css.identToken (front ++ other) := by
  have progress := name_size_of_startsIdent ident
  by_cases paren : ((front ++ other).drop (Css.name (front ++ other)).size).head? = some '('
  · -- a parenthesis ends the name, and no name goes on with that
    obtain ⟨_, behind⟩ := List.head?_eq_some_iff.mp paren
    have short : (Css.name (front ++ other)).size < front.length := by
      rw [identToken_opens behind] at size
      split at size <;> simp only [Scan.behind_size] at size <;> omega
    obtain ⟨front₁, front₂, rfl, length⟩ :
        ∃ front₁ front₂, front = front₁ ++ '(' :: front₂ ∧ front₁.length = (Css.name (front ++ other)).size := by
      refine ⟨front.take (Css.name (front ++ other)).size, (front.drop (Css.name (front ++ other)).size).tail, ?_,
        List.length_take_of_le (Nat.le_of_lt short)⟩
      have whole := List.take_append_drop (Css.name (front ++ other)).size front
      rw [List.drop_append_of_le_length (Nat.le_of_lt short)] at behind
      cases more : front.drop (Css.name (front ++ other)).size with
      | nil =>
          have := List.drop_eq_nil_iff.mp more
          omega
      | cons c front₂ =>
          rw [more] at behind whole
          obtain rfl := (List.cons.inj behind).1
          exact whole.symm
    simp only [List.append_assoc] at size quoted length progress ident ⊢
    have goesOn : Yields ('(' :: (front₂ ++ text)) ('(' :: (front₂ ++ other)) :=
      isBreak_paren.yields _ (List.cons_ne_nil _ _) (.inr rfl)
    have same : Css.name (front₁ ++ ('(' :: front₂ ++ text)) = Css.name (front₁ ++ ('(' :: front₂ ++ other)) :=
      goesOn.name length.symm
    have letters : front₁ ≠ [] := by
      rintro rfl
      rw [← length] at progress
      exact absurd progress (Nat.lt_irrefl 0)
    refine ⟨(goesOn.startsIdent_iff letters length.symm).trans ident, ?_⟩
    have behind (X : List Char) : (front₁ ++ ('(' :: front₂ ++ X)).drop front₁.length = '(' :: (front₂ ++ X) := by
      rw [List.drop_left, List.cons_append]
    have opens := behind other
    have opens' := behind text
    rw [length] at opens
    rw [length, ← same] at opens'
    rw [identToken_opens opens', same]
    rw [identToken_opens opens] at size quoted ⊢
    split
    · next url =>
        rw [if_pos url] at size quoted
        simp only [Scan.behind_size, Scan.behind_value, id_eq, List.length_append, List.length_cons] at size quoted
        rw [h.urlToken (by omega) fun function => quoted _ function (toLower_ofList_eq.mpr url)]
    · rfl
  · rw [identToken_plain paren] at size ⊢
    have size : (Css.name (front ++ other)).size = front.length := size
    have same := h.name size
    have letters : front ≠ [] := by
      rintro rfl
      rw [size] at progress
      exact absurd progress (Nat.lt_irrefl 0)
    refine ⟨(h.startsIdent_iff letters size).trans ident, ?_⟩
    rw [size, List.drop_left] at paren
    have paren' : text.head? ≠ some '(' := fun first =>
      paren (h.mark (by decide) first)
    rw [identToken_plain (by rw [same, size, List.drop_left]; exact paren'), same]

theorem Yields.hashToken {front : List Char} (some : front ≠ [])
    (size : (Css.hashToken (front ++ other)).size = 1 + front.length) :
    Css.hashToken (front ++ text) = Css.hashToken (front ++ other) := by
  have size : (Css.name (front ++ other)).size = front.length := Nat.add_left_cancel size
  unfold Css.hashToken
  rw [h.name size, h.startsIdent_iff some size]

theorem Yields.stringToken {quote : Char} {front : List Char}
    (size : (Css.stringToken quote (front ++ other)).size = 1 + front.length)
    (bad : (Css.stringToken quote (front ++ other)).value = .badString → text.head? = other.head?) :
    Css.stringToken quote (front ++ text) = Css.stringToken quote (front ++ other) := by
  unfold Css.stringToken at size bad ⊢
  rw [h.string (Nat.add_left_cancel size) fun none => bad (by rw [Scan.behind_value, none])]

theorem Yields.starts {c : Char} {front : List Char} (starts : Numeral.starts (c :: (front ++ text)) = true) :
    Numeral.starts (c :: (front ++ other)) = true := by
  rw [starts_eq, Bool.or_eq_true, Numeral.takeSign] at starts ⊢
  by_cases signed : c = '+' ∨ c = '-'
  · rw [if_pos signed] at starts ⊢
    refine starts.imp (fun digit => ?_) h.startsPoint
    cases front with
    | nil => exact h.startsDigit digit
    | cons d front => exact digit
  · rw [if_neg signed] at starts ⊢
    refine starts.imp id fun point => ?_
    have point : Css.startsPoint (c :: front ++ text) = true := point
    exact h.startsPoint point

theorem Yields.closes {front : List Char} (before : ['-', '>'] <+: front ++ text) : ['-', '>'] <+: front ++ other := by
  match front with
  | [] => exact h.closing before
  | [d] =>
      obtain ⟨rfl, ⟨rest, rfl⟩⟩ := List.cons_prefix_cons.mp before
      obtain ⟨rest', rfl⟩ := List.head?_eq_some_iff.mp (h.mark (by decide) rfl)
      exact ⟨rest', rfl⟩
  | d :: e :: front =>
      obtain ⟨rfl, behind⟩ := List.cons_prefix_cons.mp before
      obtain ⟨rfl, -⟩ := List.cons_prefix_cons.mp behind
      exact ⟨front ++ other, rfl⟩

/-- A character by itself begins a name in front of the other text, too. -/
theorem Yields.startsIdent_one {c : Char} (backslash : c = '\\' → text.head? = other.head?)
    (starts : startsIdent (c :: text) = true) : startsIdent (c :: other) = true := by
  by_cases dash : c = '-'
  · subst dash
    rw [startsIdent_dash_eq, Bool.or_eq_true, Option.any_eq_true] at starts ⊢
    refine starts.imp ?_ h.escape
    rintro ⟨d, first, letter⟩
    exact h.head (p := fun c => isNameStart c || c == '-') (by decide) first letter
  · rw [startsIdent_of_ne_dash dash, Bool.or_eq_true] at starts ⊢
    refine starts.imp id fun escape => ?_
    obtain rfl : c = '\\' := eq_of_beq (Bool.and_eq_true_iff.mp escape).1
    rw [startsEscape, ← escapable_congr (backslash rfl)]
    exact escape

/-- A token that ends where the front does is read there before any text that yields. What comes next may not change where
a bad string, a backslash alone or the function `url(` is read, as there is nothing in them that shows it. -/
theorem Yields.token {c : Char} {front : List Char} (size : (Css.token c (front ++ other)).size = 1 + front.length)
    (same : (Css.token c (front ++ other)).value = .badString ∨ (Css.token c (front ++ other)).value = .delim '\\' →
      text.head? = other.head?)
    (quoted : ∀ spelling, (Css.token c (front ++ other)).value = .function spelling → spelling.toLower = "url" →
      (text.dropWhile isSpace).head? = (other.dropWhile isSpace).head?) :
    Css.token c (front ++ text) = Css.token c (front ++ other) := by
  by_cases mark : punctuation? c = none
  case neg =>
    obtain ⟨kind, mark⟩ := Option.ne_none_iff_exists'.mp mark
    rw [token_mark mark, token_mark mark]
  by_cases space : isSpace c = true
  · rw [token_space mark space] at size
    have short : spaces (front ++ other) ≤ front.length := Nat.le_of_eq (Nat.add_left_cancel size)
    rw [token_space mark space, token_space mark space, spaces, h.takeWhile (by decide) short, spaces]
  by_cases quote : c = '"' ∨ c = '\''
  · rw [token_quote quote] at size same
    rw [token_quote quote, token_quote quote, h.stringToken size fun bad => same (.inl bad)]
  have plain : IsPlain c := ⟨mark, space, quote⟩
  by_cases number : Numeral.starts (c :: (front ++ other)) = true
  · rw [token_number plain number] at size
    have size : (Css.numericToken (c :: front ++ other)).size = (c :: front).length := by
      rw [List.length_cons, Nat.add_comm]
      exact size
    have number' : Numeral.starts (c :: (front ++ text)) = true := by
      rw [← List.cons_append, starts_iff, h.ofPrefix_numericToken size]
      exact starts_iff.mp number
    have same := h.numericToken size
    rw [List.cons_append, List.cons_append] at same
    rw [token_number plain number, token_number plain number', same]
  have number' : ¬ Numeral.starts (c :: (front ++ text)) = true := fun starts => number (h.starts starts)
  by_cases closing : c = '-' ∧ ['-', '>'] <+: front ++ other
  · obtain ⟨rfl, closing⟩ := closing
    rw [token_closing closing] at size ⊢
    obtain rfl := eq_of_prefix closing (Nat.add_left_cancel size).symm
    rw [token_closing (List.prefix_append _ _)]
  have closing' : ¬ (c = '-' ∧ ['-', '>'] <+: front ++ text) := fun closes => closing ⟨closes.1, h.closes closes.2⟩
  by_cases opening : c = '<' ∧ ['!', '-', '-'] <+: front ++ other
  · obtain ⟨rfl, opening⟩ := opening
    rw [token_opening opening] at size ⊢
    obtain rfl := eq_of_prefix opening (Nat.add_left_cancel size).symm
    rw [token_opening (List.prefix_append _ _)]
  by_cases hash : c = '#' ∧ Css.startsName (front ++ other) = true
  · obtain ⟨rfl, hash⟩ := hash
    rw [token_hash hash] at size
    have name : (Css.name (front ++ other)).size = front.length := Nat.add_left_cancel size
    have letters : front ≠ [] := by
      rintro rfl
      have := startsName_iff_size.mp hash
      rw [name] at this
      exact absurd this (Nat.lt_irrefl 0)
    have hash' : Css.startsName (front ++ text) = true :=
      startsName_iff_size.mpr (by rw [h.name name]; exact startsName_iff_size.mp hash)
    rw [token_hash hash, token_hash hash', h.hashToken letters size]
  by_cases keyword : c = '@' ∧ startsIdent (front ++ other) = true
  · obtain ⟨rfl, ident⟩ := keyword
    rw [token_keyword ident] at size
    have name : (Css.name (front ++ other)).size = front.length := Nat.add_left_cancel size
    have letters : front ≠ [] := by
      rintro rfl
      have := name_size_of_startsIdent ident
      rw [name] at this
      exact absurd this (Nat.lt_irrefl 0)
    rw [token_keyword ident, token_keyword ((h.startsIdent_iff letters name).trans ident), h.name name]
  by_cases ident : startsIdent (c :: (front ++ other)) = true
  · rw [token_ident plain number closing ident] at size quoted
    have size : (Css.identToken (c :: front ++ other)).size = (c :: front).length := by
      rw [List.length_cons, Nat.add_comm]
      exact size
    obtain ⟨ident', same⟩ := h.identToken ident size quoted
    rw [List.cons_append] at ident' same
    rw [List.cons_append] at same
    rw [token_ident plain number closing ident, token_ident plain number' closing' ident', same]
  have delim := token_delim plain number closing opening hash keyword ident
  rw [delim] at size same ⊢
  obtain rfl : front = [] := List.length_eq_zero_iff.mp (Nat.add_left_cancel size).symm
  have opening' : ¬ (c = '<' ∧ ['!', '-', '-'] <+: text) := fun opens => opening ⟨opens.1, h.opening opens.2⟩
  have hash' : ¬ (c = '#' ∧ Css.startsName text = true) := fun starts => hash ⟨starts.1, h.startsName starts.2⟩
  have keyword' : ¬ (c = '@' ∧ startsIdent text = true) := fun starts => keyword ⟨starts.1, h.ident starts.2⟩
  have ident' : ¬ startsIdent (c :: text) = true := by
    intro starts
    refine ident (h.startsIdent_one (fun slash => same (.inr ?_)) starts)
    rw [slash]
  exact token_delim plain number' closing' opening' hash' keyword' ident'

end
end StyleAudit.Css
