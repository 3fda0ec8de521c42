import StyleAudit.Proofs.GrammarForms
import StyleAudit.Proofs.PositionText
import StyleAudit.Proofs.SelectorWords
import StyleAudit.Proofs.Trimming
/-!
The usual notation of compounds, which is one for each compound, and that the grammar reads it back.
-/
namespace StyleAudit.Selector

open Text (Scan)

/-- A text that can stand between double quotes as it is. -/
def IsQuotable (value : List Char) : Prop := ∀ c ∈ value, c ≠ '"' ∧ c ≠ '\\' ∧ c ≠ '\n'

/-- What only the start of a compound may hold. -/
def Simple.isType : Simple → Bool
  | .element _ | .universal => true
  | _ => false

/-- What a negation may hold. -/
def Simple.isNegatable : Simple → Bool
  | .negation _ | .pseudoElement _ => false
  | _ => true

/-- A simple selector whose names are identifiers in ASCII, whose values can be quoted and whose positions have parts of
32 bits. -/
def Simple.WellFormed : Simple → Prop
  | .element name | .className name => isIdentifier name.toList = true
  | .universal | .nesting | .pseudoClass _ | .pseudoElement _ => True
  | .id name => name.toList ≠ [] ∧ ∀ c ∈ name.toList, isWordChar c = true
  | .hasAttribute name none => isIdentifier name.toList = true
  | .hasAttribute name (some (_, value)) => isIdentifier name.toList = true ∧ IsQuotable value.toList
  | .negation argument => argument.isNegatable = true ∧ argument.WellFormed
  | .language range => range.toList ≠ [] ∧ ∀ c ∈ range.toList, isLanguageChar c = true
  | .position _ place => fits place.step = true ∧ fits place.offset = true

structure Compound.WellFormed (compound : Compound) : Prop where
  some : compound ≠ []
  simples : ∀ simple ∈ compound, simple.WellFormed
  typeFirst : ∀ simple ∈ compound.tail, simple.isType = false

/-- Zero for both parts is not written as a number, which no position may be. -/
def Position.written (place : Position) : List Char :=
  if place = ⟨0, 0⟩ then "0n".toList else place.text.toList

def Simple.written : Simple → List Char
  | .element name => name.toList
  | .universal => ['*']
  | .nesting => ['&']
  | .className name => '.' :: name.toList
  | .id name => '#' :: name.toList
  | .hasAttribute name none => '[' :: (name.toList ++ [']'])
  | .hasAttribute name (some (test, value)) =>
      '[' :: (name.toList ++ (test.sign.toList ++ '"' :: (value.toList ++ ['"', ']'])))
  | .pseudoClass pseudo => ':' :: pseudo.name.toList
  | .negation argument => ':' :: ("not".toList ++ '(' :: (argument.written ++ [')']))
  | .language range => ':' :: ("lang".toList ++ '(' :: (range.toList ++ [')']))
  | .position pseudo place => ':' :: (pseudo.name.toList ++ '(' :: (place.written ++ [')']))
  | .pseudoElement pseudo => ':' :: ':' :: pseudo.name.toList

def Compound.written (compound : Compound) : List Char := compound.flatMap Simple.written

theorem Compound.written_cons (simple : Simple) (more : Compound) :
    Compound.written (simple :: more) = simple.written ++ Compound.written more := List.flatMap_cons

/-! Reading one simple selector, with the rest of the text behind it. -/

/-- The characters that make more of a simple selector. -/
def extendsSimple (c : Char) : Bool := extendsName c || c == '('

theorem StopsAt.name {text : List Char} (h : StopsAt extendsSimple text) : StopsAt extendsName text :=
  h.mono fun c hc => by simp [extendsSimple, hc]

theorem simples_piece {c : Char} {text : List Char} {pos n : Nat} {simple : Simple}
    (h : (if c = '.' then (ident .className (pos + 1) text).map (Scan.map Simple.className)
        else if c = '#' then (name .id (pos + 1) text).map (Scan.map Simple.id)
        else if c = '&' then .ok ⟨.nesting, 0⟩
        else attributeSelector (pos + 1) text) = .ok ⟨simple, n⟩)
    (hc : c = '.' ∨ c = '#' ∨ c = '&' ∨ c = '[') :
    simples pos (c :: text) =
      (simples (pos + (1 + n)) (text.drop n)).map (Scan.behind (1 + n) (simple :: ·)) := by
  have plain : c ≠ ':' ∧ c ≠ '*' ∧ startsIdent (c :: text) = false := by
    rcases hc with rfl | rfl | rfl | rfl <;> exact ⟨by decide, by decide, by simp [startsIdent, startsEscape]; decide⟩
  rw [simples, if_neg plain.1, if_neg plain.2.1, plain.2.2, if_neg (by decide), if_pos hc]
  simp only [h]

theorem simples_pseudo {text : List Char} {pos n : Nat} {simple : Simple}
    (h : pseudo (pos + 1) text = .ok ⟨.simple simple, n⟩) :
    simples pos (':' :: text) =
      (simples (pos + (1 + n)) (text.drop n)).map (Scan.behind (1 + n) (simple :: ·)) := by
  rw [simples, if_pos rfl, h]

theorem simples_negation {text : List Char} {pos start size n : Nat} {simple : Simple}
    (h : pseudo (pos + 1) text = .ok ⟨.negation start size, n⟩)
    (hi : negated (pos + 1 + start) ((text.drop start).take size) = .ok simple) :
    simples pos (':' :: text) =
      (simples (pos + (1 + n)) (text.drop n)).map (Scan.behind (1 + n) (.negation simple :: ·)) := by
  rw [simples, if_pos rfl, h]
  simp only [hi]

theorem spaces_none {text : List Char} (h : StopsAt isSpace text) : spaces text = 0 := spaces_append .nil h

theorem isSpace_of_word {c : Char} (h : isWordChar c = true) : isSpace c = false := by
  rw [isWordChar_iff] at h
  rw [Bool.eq_false_iff, ne_eq, isSpace_iff]
  omega

theorem identifier_stopsAtSpace {word : List Char} (h : isIdentifier word = true) (rest : List Char) :
    StopsAt isSpace (word ++ rest) := by
  cases word with
  | nil => cases h
  | cons c word => exact .cons (isSpace_of_word ((isIdentifier_spec h).1 c (by simp)))

/-- A text that holds neither the quote nor a backslash nor a line feed is a string as it is. -/
theorem string_quoted {quote : Char} {value : List Char} (h : ∀ c ∈ value, c ≠ quote ∧ c ≠ '\\' ∧ c ≠ '\n')
    (rest : List Char) (pos : Nat) : string quote pos (value ++ quote :: rest) = .ok ⟨value, value.length + 1⟩ := by
  induction value generalizing pos with
  | nil =>
      rw [List.nil_append, string.eq_def]
      simp
  | cons c value ih =>
      obtain ⟨closing, slash, line⟩ := h c (by simp)
      have tail := ih (fun d hd => h d (by simp [hd])) (pos + 1)
      rw [List.cons_append, string.eq_def]
      simp only [if_neg closing, if_neg slash, if_neg line, tail]
      simp [Except.map, Scan.behind]
      omega

theorem attributeTest_sign (test : AttributeTest) (rest : List Char) (pos : Nat) :
    attributeTest pos (test.sign.toList ++ rest) = .ok ⟨some test, test.sign.toList.length⟩ := by
  cases test <;> rfl

theorem stops_sign (test : AttributeTest) (rest : List Char) :
    StopsAt extendsName (test.sign.toList ++ rest) ∧ StopsAt isSpace (test.sign.toList ++ rest) := by
  cases test <;> exact ⟨.cons (by decide), .cons (by decide)⟩

theorem attributeSelector_bare {word : List Char} (h : isIdentifier word = true) (rest : List Char) (pos : Nat) :
    attributeSelector pos (word ++ ']' :: rest) =
      .ok ⟨.hasAttribute (String.ofList word) none, word.length + 1⟩ := by
  have stop : StopsAt extendsName (']' :: rest) := .cons (by decide)
  have name := ident_identifier h stop .attributeName pos
  have blank : spaces (']' :: rest) = 0 := spaces_none (.cons (by decide))
  simp [attributeSelector, spaces_none (identifier_stopsAtSpace h _), name, blank, attributeTest, bind, Except.bind,
    pure, Except.pure]

theorem attributeValue_quotable {value : List Char} (h : IsQuotable value) (rest : List Char) (pos : Nat) :
    attributeValue pos ('"' :: (value ++ '"' :: rest)) = .ok ⟨String.ofList value, value.length + 2⟩ := by
  unfold attributeValue
  simp only [true_or, if_true, string_quoted h]
  simp [Except.map, Scan.behind]
  omega

theorem attributeSelector_quoted {word value : List Char} (h : isIdentifier word = true) (hv : IsQuotable value)
    (test : AttributeTest) (rest : List Char) (pos : Nat) :
    attributeSelector pos (word ++ (test.sign.toList ++ '"' :: (value ++ '"' :: ']' :: rest))) =
      .ok ⟨.hasAttribute (String.ofList word) (some (test, String.ofList value)),
        word.length + (test.sign.toList.length + (value.length + 3))⟩ := by
  have sign := stops_sign test ('"' :: (value ++ '"' :: ']' :: rest))
  have name := ident_identifier h sign.1 .attributeName pos
  have quote : spaces ('"' :: (value ++ '"' :: ']' :: rest)) = 0 := spaces_none (.cons (by decide))
  have bracket : spaces (']' :: rest) = 0 := spaces_none (.cons (by decide))
  have stop : ∀ pos, attributeEnd pos (']' :: rest) = .ok ⟨(), 1⟩ := fun _ => rfl
  have behind : ('"' :: (value ++ '"' :: ']' :: rest)).drop (value.length + 2) = ']' :: rest := by
    rw [show '"' :: (value ++ '"' :: ']' :: rest) = ('"' :: (value ++ ['"'])) ++ ']' :: rest by simp,
      List.drop_left' (by simp)]
  simp only [attributeSelector, spaces_none (identifier_stopsAtSpace h _), name, bind, Except.bind, Nat.add_zero,
    Nat.zero_add, List.drop_zero, List.drop_left, spaces_none sign.2, attributeTest_sign, pure, Except.pure,
    ← List.drop_drop, quote, attributeValue_quotable hv, behind, bracket, stop]
  simp only [Nat.add_assoc]

/-! Arguments. -/

/-- A text that the search for the end of an argument passes over, whatever stands behind it. -/
def IsBalanced (text : List Char) : Prop := ∀ depth rest,
  argumentSize depth none (text ++ rest) = (argumentSize depth none rest).map (text.length + ·)

/-- A character that means nothing to the search for the end of an argument. -/
def isArgumentChar (c : Char) : Bool := c != '"' && c != '\'' && c != '(' && c != ')'

theorem IsBalanced.append {before behind : List Char} (hb : IsBalanced before) (hr : IsBalanced behind) :
    IsBalanced (before ++ behind) := by
  intro depth rest
  rw [List.append_assoc, hb, hr, Option.map_map, List.length_append]
  congr 1
  funext n
  simp [Nat.add_assoc]

theorem IsBalanced.plain {text : List Char} (h : ∀ c ∈ text, isArgumentChar c = true) : IsBalanced text := by
  induction text with
  | nil => intro depth rest; simp
  | cons c text ih =>
      intro depth rest
      have first := h c (by simp)
      simp only [isArgumentChar, Bool.and_eq_true, bne_iff_ne, ne_eq] at first
      obtain ⟨⟨⟨double, single⟩, opening⟩, closing⟩ := first
      rw [List.cons_append, argumentSize.eq_def]
      simp only [double, single, opening, closing, or_self, if_false, ih (fun d hd => h d (by simp [hd])) depth rest,
        Option.map_map, List.length_cons]
      congr 1
      funext n
      simp
      omega

theorem argumentSize_quoted {value : List Char} (h : IsQuotable value) (depth : Nat) (rest : List Char) :
    argumentSize depth (some '"') (value ++ '"' :: rest) =
      (argumentSize depth none rest).map (value.length + 1 + ·) := by
  induction value with
  | nil =>
      rw [List.nil_append, argumentSize.eq_def]
      simp
  | cons c value ih =>
      obtain ⟨quote, slash, _⟩ := h c (by simp)
      rw [List.cons_append, argumentSize.eq_def]
      simp only [if_neg quote, if_neg slash, ih fun d hd => h d (by simp [hd]), Option.map_map, List.length_cons]
      congr 1
      funext n
      simp
      omega

theorem IsBalanced.quoted {value : List Char} (h : IsQuotable value) : IsBalanced ('"' :: (value ++ ['"'])) := by
  intro depth rest
  rw [List.cons_append, List.append_assoc, List.singleton_append, argumentSize.eq_def]
  simp only [true_or, if_true, argumentSize_quoted h, Option.map_map]
  congr 1
  funext n
  simp
  omega

theorem argumentSize_closing (outer : Nat) (rest : List Char) :
    argumentSize (outer + 1) none (')' :: rest) = (argumentSize outer none rest).map (1 + ·) := by
  rw [argumentSize.eq_def]
  simp

theorem IsBalanced.parentheses {text : List Char} (h : IsBalanced text) : IsBalanced ('(' :: (text ++ [')'])) := by
  intro depth rest
  rw [List.cons_append, List.append_assoc, List.singleton_append, argumentSize.eq_def]
  simp only [h (depth + 1), argumentSize_closing, Option.map_map]
  simp
  congr 1
  funext n
  simp
  omega

/-- An argument ends at the parenthesis behind it. -/
theorem argumentSize_balanced {argument : List Char} (h : IsBalanced argument) (rest : List Char) :
    argumentSize 0 none (argument ++ ')' :: rest) = some argument.length := by
  rw [h, argumentSize.eq_def]
  simp

theorem isArgumentChar_of_isWordChar {c : Char} (h : isWordChar c = true) : isArgumentChar c = true := by
  rw [isWordChar_iff] at h
  simp only [isArgumentChar, Bool.and_eq_true, bne_iff_ne, ne_eq, char_eq_iff]
  simp
  omega

/-! Pseudo-classes and pseudo-elements, behind their first colon. -/

theorem identifier_noColon {word : List Char} (h : isIdentifier word = true) :
    ∃ c more, word = c :: more ∧ c ≠ ':' := by
  cases word with
  | nil => cases h
  | cons c more =>
      refine ⟨c, more, rfl, ?_⟩
      rintro rfl
      exact absurd ((isIdentifier_spec h).1 ':' (by simp)) (by decide)

theorem pseudo_plain {word rest : List Char} {simple : Simple} {pos : Nat} (h : isIdentifier word = true)
    (hr : StopsAt extendsSimple rest)
    (hs : plainPseudoClass (pos + word.length) (String.ofList word) = .ok simple) :
    pseudo pos (word ++ rest) = .ok ⟨.simple simple, word.length⟩ := by
  have name := ident_identifier h hr.name .pseudo pos
  obtain ⟨c, more, same, colon⟩ := identifier_noColon h
  have noArgument : ∀ argument, rest ≠ '(' :: argument := by
    rintro argument rfl
    exact absurd (hr '(' rfl) (by decide)
  unfold pseudo
  split
  · next again =>
      rw [same] at again
      injection again with again
      exact absurd again colon
  · simp only [name, hs, bind, Except.bind, List.drop_left, pure, Except.pure]

/-- A name in front of an argument, wherever the argument ends. -/
theorem pseudo_call {word argument rest : List Char} (h : isIdentifier word = true)
    (ha : argumentSize 0 none (argument ++ ')' :: rest) = some argument.length) (pos : Nat) :
    pseudo pos (word ++ '(' :: (argument ++ ')' :: rest)) =
      if (String.ofList word).toLower = "not" then
        .ok ⟨.negation (word.length + 1) argument.length, word.length + (argument.length + 2)⟩
      else (pseudoFunction (pos + (word.length + 1)) (pos + (word.length + 1) + argument.length + 1)
        (String.ofList word) argument).map (⟨.simple ·, word.length + (argument.length + 2)⟩) := by
  have size : word.length + 1 + argument.length + 1 = word.length + (argument.length + 2) := by omega
  have stop : StopsAt extendsName ('(' :: (argument ++ ')' :: rest)) := .cons (by decide)
  have name := ident_identifier h stop .pseudo pos
  obtain ⟨c, more, same, colon⟩ := identifier_noColon h
  unfold pseudo
  split
  · next again =>
      rw [same] at again
      injection again with again
      exact absurd again colon
  · simp only [name, bind, Except.bind, List.drop_left, ha, List.take_left, pure, Except.pure, size]
    split
    · rfl
    · cases pseudoFunction (pos + (word.length + 1)) (pos + (word.length + 1) + argument.length + 1)
        (String.ofList word) argument <;> rfl

theorem pseudo_element {word rest : List Char} {element : PseudoElement} (h : isIdentifier word = true)
    (hr : StopsAt extendsSimple rest) (he : PseudoElement.ofName? (String.ofList word).toLower = some element)
    (pos : Nat) : pseudo pos (':' :: (word ++ rest)) = .ok ⟨.simple (.pseudoElement element), 1 + word.length⟩ := by
  have name := ident_identifier h hr.name .pseudo (pos + 1)
  have noArgument : (rest.head? == some '(') = false := by
    rw [Bool.eq_false_iff]
    intro opening
    exact absurd (hr '(' (by simpa using opening)) (by decide)
  have behind : (':' :: (word ++ rest)).drop (1 + word.length) = rest := by simp [Nat.add_comm 1]
  unfold pseudo
  simp only [name, bind, Except.bind, behind, pseudoElement, he, noArgument, pure, Except.pure]

theorem isWordChar_of_isLanguageChar {c : Char} (h : isLanguageChar c = true) : isWordChar c = true := by
  simp only [isLanguageChar, isWordChar] at h ⊢
  rw [h, Bool.true_or]

theorem language_range {range : List Char} (hne : range ≠ []) (h : ∀ c ∈ range, isLanguageChar c = true) (pos : Nat) :
    language pos range = .ok (.language (String.ofList range)) := by
  have whole : Text.trim range = range := Text.trim_eq_self_of_all fun c hc =>
    isBlank_of_isWordChar (isWordChar_of_isLanguageChar (h c hc))
  have all : range.all isLanguageChar = true := List.all_eq_true.mpr h
  simp [language, whole, hne, all]

theorem read_written {place : Position} (hs : fits place.step = true) (ho : fits place.offset = true) :
    (∀ c ∈ place.written, isPositionChar c = true) ∧ Position.read place.written = .ok place := by
  rw [Position.written]
  split
  · next zero =>
      subst zero
      exact ⟨List.all_eq_true.mp (by decide), rfl⟩
  · next other => exact read_text hs ho other

theorem isArgumentChar_of_isPositionChar {c : Char} (h : isPositionChar c = true) : isArgumentChar c = true := by
  rw [isPositionChar_iff] at h
  simp only [isArgumentChar, Bool.and_eq_true, bne_iff_ne, ne_eq, char_eq_iff]
  simp
  omega

/-- The names of pseudo-classes and pseudo-elements are identifiers in lower case, and each is found by its name. -/
theorem PseudoClass.name_spec (pseudo : PseudoClass) : isIdentifier pseudo.name.toList = true ∧
    pseudo.name.toLower = pseudo.name ∧ PseudoClass.ofName? pseudo.name = some pseudo := by
  refine ⟨?_, toLower_eq_self_of_all ?_, ?_⟩ <;> cases pseudo <;> decide

theorem PseudoElement.name_spec (pseudo : PseudoElement) : isIdentifier pseudo.name.toList = true ∧
    pseudo.name.toLower = pseudo.name ∧ PseudoElement.ofName? pseudo.name = some pseudo := by
  refine ⟨?_, toLower_eq_self_of_all ?_, ?_⟩ <;> cases pseudo <;> decide

theorem PositionClass.name_spec (pseudo : PositionClass) : isIdentifier pseudo.name.toList = true ∧
    pseudo.name.toLower = pseudo.name ∧ pseudo.name ≠ "not" ∧ pseudo.name ≠ "lang" ∧
    PositionClass.ofName? pseudo.name = some pseudo := by
  refine ⟨?_, toLower_eq_self_of_all ?_, ?_, ?_, ?_⟩ <;> cases pseudo <;> decide

/-! Steps: one simple selector and what stands behind it. -/

theorem Simple.written_balanced {simple : Simple} (hw : simple.WellFormed) (hn : simple.isNegatable = true) :
    IsBalanced simple.written := by
  have word {text : List Char} (h : ∀ c ∈ text, isWordChar c = true) : IsBalanced text :=
    .plain fun c hc => isArgumentChar_of_isWordChar (h c hc)
  have mark (c : Char) (h : isArgumentChar c = true) : IsBalanced [c] := .plain (by simpa using h)
  cases simple with
  | element name => exact word (isIdentifier_spec hw).1
  | universal => exact mark '*' rfl
  | nesting => exact mark '&' rfl
  | className name => exact (mark '.' rfl).append (word (isIdentifier_spec hw).1)
  | id name => exact (mark '#' rfl).append (word hw.2)
  | hasAttribute name test =>
      cases test with
      | none => exact (mark '[' rfl).append ((word (isIdentifier_spec hw).1).append (mark ']' rfl))
      | some test =>
          obtain ⟨test, value⟩ := test
          have sign : IsBalanced test.sign.toList := .plain (List.all_eq_true.mp (by cases test <;> decide))
          have closed := (IsBalanced.quoted hw.2).append (mark ']' rfl)
          have all := (mark '[' rfl).append ((word (isIdentifier_spec hw.1).1).append (sign.append closed))
          simpa [Simple.written] using all
  | pseudoClass pseudo => exact (mark ':' rfl).append (word (isIdentifier_spec pseudo.name_spec.1).1)
  | negation argument => cases hn
  | language range =>
      have inner := (word fun c hc => isWordChar_of_isLanguageChar (hw.2 c hc)).parentheses
      have name : IsBalanced "lang".toList := word (List.all_eq_true.mp (by decide))
      exact (mark ':' rfl).append (name.append inner)
  | position pseudo place =>
      have inner := (IsBalanced.plain fun c hc =>
        isArgumentChar_of_isPositionChar ((read_written hw.1 hw.2).1 c hc)).parentheses
      exact (mark ':' rfl).append ((word (isIdentifier_spec pseudo.name_spec.1).1).append inner)
  | pseudoElement pseudo => cases hn

theorem simples_marked {c : Char} (body : List Char) {rest : List Char} {simple : Simple} {pos : Nat}
    (h : simples pos (c :: (body ++ rest)) = (simples (pos + (1 + body.length)) ((body ++ rest).drop body.length)).map
      (Scan.behind (1 + body.length) (simple :: ·))) :
    simples pos (c :: body ++ rest) =
      (simples (pos + (c :: body).length) rest).map (Scan.behind (c :: body).length (simple :: ·)) := by
  rw [List.drop_left, Nat.add_comm 1] at h
  exact h

/-- What is written for a simple selector is read as it, whatever stands behind it. -/
def Simple.ReadsItself (simple : Simple) : Prop := ∀ pos rest, StopsAt extendsSimple rest →
  simples pos (simple.written ++ rest) =
    (simples (pos + simple.written.length) rest).map (Scan.behind simple.written.length (simple :: ·))

theorem Simple.readsItself_plain {simple : Simple} (hw : simple.WellFormed) (ht : simple.isType = false)
    (hn : ∀ argument, simple ≠ .negation argument) : simple.ReadsItself := by
  intro pos rest hr
  cases simple with
  | element name => cases ht
  | universal => cases ht
  | nesting => exact simples_marked _ (simples_piece (n := 0) rfl (by decide))
  | className name =>
      have read := ident_identifier hw hr.name .className (pos + 1)
      refine simples_marked _ (simples_piece ?_ (.inl rfl))
      simp [read, Except.map, Scan.map]
  | id name =>
      have read := name_word hw.2 hw.1 hr.name .id (pos + 1)
      refine simples_marked _ (simples_piece ?_ (.inr (.inl rfl)))
      simp [read, Except.map, Scan.map]
  | hasAttribute name test =>
      cases test with
      | none =>
          refine simples_marked _ (simples_piece ?_ (.inr (.inr (.inr rfl))))
          simp [attributeSelector_bare hw]
      | some test =>
          obtain ⟨test, value⟩ := test
          refine simples_marked _ (simples_piece ?_ (.inr (.inr (.inr rfl))))
          simp [attributeSelector_quoted hw.1 hw.2]
  | pseudoClass pseudo =>
      obtain ⟨word, lower, found⟩ := pseudo.name_spec
      refine simples_marked _ (simples_pseudo (pseudo_plain word hr ?_))
      simp [plainPseudoClass, lower, found]
  | negation argument => exact absurd rfl (hn argument)
  | language range =>
      have balanced : IsBalanced range.toList := .plain fun c hc =>
        isArgumentChar_of_isWordChar (isWordChar_of_isLanguageChar (hw.2 c hc))
      have lower : (String.ofList "lang".toList).toLower = "lang" := toLower_eq_self_of_all (by decide)
      refine simples_marked _ (simples_pseudo ?_)
      have word : isIdentifier "lang".toList = true := by decide
      have call := pseudo_call word (argumentSize_balanced balanced rest) (pos + 1)
      simp only [lower, pseudoFunction, language_range hw.1 hw.2] at call
      rw [List.append_assoc, List.cons_append, List.append_assoc, List.singleton_append, call]
      simp [Except.map]
      omega
  | position pseudo place =>
      obtain ⟨word, lower, notNegation, notLanguage, found⟩ := pseudo.name_spec
      obtain ⟨chars, read⟩ := read_written hw.1 hw.2
      have balanced : IsBalanced place.written := .plain fun c hc => isArgumentChar_of_isPositionChar (chars c hc)
      refine simples_marked _ (simples_pseudo ?_)
      have call := pseudo_call word (argumentSize_balanced balanced rest) (pos + 1)
      simp only [String.ofList_toList, lower, notNegation, notLanguage, pseudoFunction, found, read] at call
      simpa [Except.map] using call
  | pseudoElement pseudo =>
      obtain ⟨word, lower, found⟩ := pseudo.name_spec
      refine simples_marked (':' :: pseudo.name.toList) (simples_pseudo ?_)
      rw [List.cons_append, pseudo_element word hr (by rw [String.ofList_toList, lower, found])]
      simp [Nat.add_comm]

/-! Compounds and negations. -/

/-- The characters that make more of a compound. -/
def extendsCompound (c : Char) : Bool := extendsSimple c || beginsSimple c || c == '*'

theorem StopsAt.simple {text : List Char} (h : StopsAt extendsCompound text) : StopsAt extendsSimple text :=
  h.mono fun c hc => by simp [extendsCompound, hc]

theorem startsIdent_of_stops {text : List Char} (h : StopsAt extendsName text) : startsIdent text = false := by
  cases text with
  | nil => rfl
  | cons c rest =>
      have class_ := h c rfl
      simp only [extendsName, isNameChar, Bool.or_eq_false_iff, beq_eq_false_iff_ne] at class_
      obtain ⟨⟨⟨start, _⟩, dash⟩, slash⟩ := class_
      simp [startsIdent, dash, start, startsEscape_of_stops h]

/-- Simple selectors end where a character goes on with none of them. -/
theorem simples_stops {text : List Char} (h : StopsAt extendsCompound text) (pos : Nat) :
    simples pos text = .ok ⟨[], 0⟩ := by
  cases text with
  | nil => rw [simples]
  | cons c rest =>
      have first := h c rfl
      simp only [extendsCompound, beginsSimple, Bool.or_eq_false_iff, beq_eq_false_iff_ne] at first
      obtain ⟨⟨_, ⟨⟨⟨colon, dot⟩, hash⟩, nesting⟩, bracket⟩, star⟩ := first
      rw [simples, if_neg colon, if_neg star, startsIdent_of_stops h.simple.name]
      simp [dot, hash, nesting, bracket]

theorem Simple.written_begins {simple : Simple} (h : simple.isType = false) :
    ∃ c more, simple.written = c :: more ∧ beginsSimple c = true := by
  cases simple with
  | element name => cases h
  | universal => cases h
  | hasAttribute name test =>
      rcases test with _ | ⟨test, value⟩ <;> exact ⟨'[', _, rfl, rfl⟩
  | nesting => exact ⟨_, _, rfl, rfl⟩
  | className name => exact ⟨_, _, rfl, rfl⟩
  | id name => exact ⟨_, _, rfl, rfl⟩
  | pseudoClass pseudo => exact ⟨_, _, rfl, rfl⟩
  | negation argument => exact ⟨_, _, rfl, rfl⟩
  | language range => exact ⟨_, _, rfl, rfl⟩
  | position pseudo place => exact ⟨_, _, rfl, rfl⟩
  | pseudoElement pseudo => exact ⟨_, _, rfl, rfl⟩

theorem extendsSimple_of_begins {c : Char} (h : beginsSimple c = true) : extendsSimple c = false := by
  simp only [beginsSimple, Bool.or_eq_true, beq_iff_eq, or_assoc] at h
  rcases h with rfl | rfl | rfl | rfl | rfl <;> decide

/-- Behind a simple selector stand others that may, or what stops a compound. -/
theorem stops_written {more : Compound} {rest : List Char} (h : ∀ simple ∈ more, simple.isType = false)
    (hr : StopsAt extendsCompound rest) : StopsAt extendsSimple (Compound.written more ++ rest) := by
  cases more with
  | nil => exact hr.simple
  | cons simple more =>
      obtain ⟨c, tail, same, begins⟩ := Simple.written_begins (h simple (by simp))
      rw [Compound.written_cons, same]
      exact .cons (extendsSimple_of_begins begins)

theorem typeSelector_none {text : List Char} {c : Char} (h : beginsSimple c = true) (pos : Nat) :
    typeSelector pos (c :: text) = .ok ⟨[], 0⟩ := by
  have name : startsIdent (c :: text) = false := startsIdent_of_stops (StopsAt.cons (extendsSimple_of_begins h)).name
  have star : c ≠ '*' := by
    rintro rfl
    cases h
  simp [typeSelector, star, name]

theorem simples_run {more : Compound} {rest : List Char} (ht : ∀ simple ∈ more, simple.isType = false)
    (h : ∀ simple ∈ more, simple.ReadsItself) (hr : StopsAt extendsCompound rest) (pos : Nat) :
    simples pos (Compound.written more ++ rest) = .ok ⟨more, (Compound.written more).length⟩ := by
  induction more generalizing pos with
  | nil => exact simples_stops hr pos
  | cons simple more ih =>
      have later : ∀ simple ∈ more, simple.isType = false := fun s hs => ht s (by simp [hs])
      have tail := ih later (fun s hs => h s (by simp [hs])) (pos + simple.written.length)
      rw [Compound.written_cons, List.append_assoc, h simple (by simp) pos _ (stops_written later hr), tail]
      simp [Except.map, Scan.behind]

theorem compound_typed {first : Simple} {more : Compound} {text rest : List Char} {n pos : Nat}
    (hf : typeSelector pos text = .ok ⟨[first], n⟩) (behind : text.drop n = Compound.written more ++ rest)
    (ht : ∀ simple ∈ more, simple.isType = false) (h : ∀ simple ∈ more, simple.ReadsItself)
    (hr : StopsAt extendsCompound rest) :
    compound pos text = .ok ⟨first :: more, n + (Compound.written more).length⟩ := by
  rw [compound.eq_def, hf]
  simp [behind, simples_run ht h hr]

theorem typeSelector_name {name : String} {rest : List Char} (h : isIdentifier name.toList = true)
    (hr : StopsAt extendsName rest) (pos : Nat) :
    typeSelector pos (name.toList ++ rest) = .ok ⟨[.element name], name.toList.length⟩ := by
  have read := ident_identifier h hr .element pos
  have star : (name.toList ++ rest).head? ≠ some '*' := by
    obtain ⟨c, tail, same, _⟩ := identifier_noColon h
    rw [same]
    intro first
    obtain rfl : c = '*' := by simpa using first
    exact absurd ((isIdentifier_spec h).1 '*' (by simp [same])) (by decide)
  rw [typeSelector, if_neg star, if_pos (startsIdent_identifier h rest), read]
  simp [Except.map, Scan.map]

/-- A compound is read as itself when its simple selectors are. -/
theorem compound_run {parts : Compound} {rest : List Char} (hw : Compound.WellFormed parts)
    (h : ∀ simple ∈ parts, simple.isType = false → simple.ReadsItself) (hr : StopsAt extendsCompound rest) (pos : Nat) :
    compound pos (Compound.written parts ++ rest) = .ok ⟨parts, (Compound.written parts).length⟩ := by
  cases parts with
  | nil => exact absurd rfl hw.some
  | cons first more =>
      have typeFirst : ∀ simple ∈ more, simple.isType = false := hw.typeFirst
      have reads : ∀ simple ∈ more, simple.ReadsItself := fun s hs => h s (by simp [hs]) (typeFirst s hs)
      rw [Compound.written_cons, List.append_assoc, List.length_append]
      cases ht : first.isType with
      | true =>
          refine compound_typed ?_ List.drop_left typeFirst reads hr
          cases first with
          | element name =>
              have word : (Simple.element name).WellFormed := hw.simples _ (by simp)
              exact typeSelector_name word (stops_written typeFirst hr).name pos
          | universal => rfl
          | _ => cases ht
      | false =>
          have all : ∀ simple ∈ first :: more, simple.isType = false := List.forall_mem_cons.mpr ⟨ht, typeFirst⟩
          have run := simples_run all (List.forall_mem_cons.mpr ⟨h first (by simp) ht, reads⟩) hr pos
          obtain ⟨c, tail, same, begins⟩ := Simple.written_begins ht
          rw [Compound.written_cons, List.append_assoc, List.length_append, same, List.cons_append] at run
          rw [same, List.cons_append, compound.eq_def, typeSelector_none begins]
          simp [run]

theorem trim_enclosed (first last : Char) (hf : Text.isBlank first = false) (hl : Text.isBlank last = false)
    (inner : List Char) : Text.trim (first :: (inner ++ [last])) = first :: (inner ++ [last]) := by
  refine Text.trim_eq_self ?_ ?_
  · intro c hc
    obtain rfl : first = c := by simpa using hc
    exact hf
  · intro c hc
    rw [← List.cons_append, List.getLast?_concat] at hc
    obtain rfl : last = c := by simpa using hc
    exact hl

/-- No blank stands at the ends of what is written for a simple selector. -/
theorem Simple.trim_written {simple : Simple} (hw : simple.WellFormed) : Text.trim simple.written = simple.written := by
  have word {text : List Char} (h : ∀ c ∈ text, isWordChar c = true) : ∀ c ∈ text, Text.isBlank c = false :=
    fun c hc => isBlank_of_isWordChar (h c hc)
  have marked {c : Char} {text : List Char} (hb : Text.isBlank c = false) (h : ∀ c ∈ text, isWordChar c = true) :
      Text.trim (c :: text) = c :: text :=
    Text.trim_eq_self_of_all (List.forall_mem_cons.mpr ⟨hb, word h⟩)
  cases simple with
  | element name => exact Text.trim_eq_self_of_all (word (isIdentifier_spec hw).1)
  | universal => rfl
  | nesting => rfl
  | className name => exact marked rfl (isIdentifier_spec hw).1
  | id name => exact marked rfl hw.2
  | hasAttribute name test =>
      rcases test with _ | ⟨test, value⟩
      · exact trim_enclosed '[' ']' rfl rfl _
      · have closed := trim_enclosed '[' ']' rfl rfl
          (name.toList ++ (test.sign.toList ++ '"' :: (value.toList ++ ['"'])))
        simpa [Simple.written] using closed
  | pseudoClass pseudo => exact marked rfl (isIdentifier_spec pseudo.name_spec.1).1
  | negation argument =>
      have closed := trim_enclosed ':' ')' rfl rfl ("not".toList ++ '(' :: argument.written)
      simpa [Simple.written] using closed
  | language range =>
      have closed := trim_enclosed ':' ')' rfl rfl ("lang".toList ++ '(' :: range.toList)
      simpa [Simple.written] using closed
  | position pseudo place =>
      have closed := trim_enclosed ':' ')' rfl rfl (pseudo.name.toList ++ '(' :: place.written)
      simpa [Simple.written] using closed
  | pseudoElement pseudo =>
      refine Text.trim_eq_self_of_all (List.forall_mem_cons.mpr ⟨rfl, List.forall_mem_cons.mpr ⟨rfl, ?_⟩⟩)
      exact word (isIdentifier_spec pseudo.name_spec.1).1

theorem Simple.written_ne_nil {simple : Simple} (hw : simple.WellFormed) : simple.written ≠ [] := by
  cases ht : simple.isType with
  | false =>
      obtain ⟨c, more, same, _⟩ := Simple.written_begins ht
      simp [same]
  | true =>
      cases simple with
      | element name =>
          obtain ⟨c, more, same, _⟩ := identifier_noColon hw
          simp [Simple.written, same]
      | universal => simp [Simple.written]
      | _ => cases ht

theorem negated_written {argument : Simple} (hw : argument.WellFormed) (hn : argument.isNegatable = true) (pos : Nat) :
    negated pos argument.written = .ok argument := by
  have alone : Compound.WellFormed [argument] := ⟨by simp, by simpa using hw, by simp⟩
  have reads : ∀ simple ∈ [argument], simple.isType = false → simple.ReadsItself := by
    intro simple hs ht
    obtain rfl : simple = argument := by simpa using hs
    exact Simple.readsItself_plain hw ht (by rintro inner rfl; cases hn)
  have nothing : StopsAt extendsCompound [] := .nil
  have run := compound_run alone reads nothing (pos + spaces argument.written)
  simp only [Compound.written, List.flatMap_cons, List.flatMap_nil, List.append_nil] at run
  rw [negated.eq_def, Simple.trim_written hw, if_neg (Simple.written_ne_nil hw)]
  simp only [run, List.drop_length]
  cases argument <;> first | rfl | cases hn

theorem Simple.readsItself {simple : Simple} (hw : simple.WellFormed) (ht : simple.isType = false) :
    simple.ReadsItself := by
  cases simple with
  | negation argument =>
      intro pos rest hr
      obtain ⟨negatable, inner⟩ := hw
      have lower : (String.ofList "not".toList).toLower = "not" := toLower_eq_self_of_all (by decide)
      have word : isIdentifier "not".toList = true := by decide
      have call := pseudo_call word (argumentSize_balanced (Simple.written_balanced inner negatable) rest) (pos + 1)
      rw [if_pos lower] at call
      have start : ("not".toList ++ '(' :: (argument.written ++ ')' :: rest)).drop ("not".toList.length + 1) =
          argument.written ++ ')' :: rest := by simp
      have size : ("not".toList ++ '(' :: (argument.written ++ [')'])).length =
          "not".toList.length + (argument.written.length + 2) := by simp; omega
      have inside := negated_written inner negatable (pos + 1 + ("not".toList.length + 1))
      rw [← @List.take_left _ argument.written (')' :: rest), ← start] at inside
      refine simples_marked _ ?_
      rw [List.append_assoc, List.cons_append, List.append_assoc, List.singleton_append,
        simples_negation call inside, size]
  | _ => exact Simple.readsItself_plain hw ht (by intro argument same; cases same)

theorem compound_written {parts : Compound} {rest : List Char} (hw : Compound.WellFormed parts)
    (hr : StopsAt extendsCompound rest) (pos : Nat) :
    compound pos (Compound.written parts ++ rest) = .ok ⟨parts, (Compound.written parts).length⟩ :=
  compound_run hw (fun simple hs ht => Simple.readsItself (hw.simples simple hs) ht) hr pos

end StyleAudit.Selector
