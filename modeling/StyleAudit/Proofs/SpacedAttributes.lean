import StyleAudit.Proofs.LoneCompounds
/-!
White space in attribute selectors. It may stand behind the bracket, the name, the sign and the value, and the selector is
the same. A flag that says whether case counts has to stand right in front of the closing bracket.
-/
namespace StyleAudit.Selector

open Text (Scan)

/-- An identifier that is written without escapes. -/
structure IsPlainIdent (word : List Char) : Prop where
  starts : startsIdent word = true
  chars : ∀ c ∈ word, isNameChar c = true

instance (word : List Char) : Decidable (IsPlainIdent word) :=
  decidable_of_iff (startsIdent word = true ∧ word.all isNameChar = true)
    ⟨fun h => ⟨h.1, List.all_eq_true.mp h.2⟩, fun h => ⟨h.starts, List.all_eq_true.mpr h.chars⟩⟩

/-- The value of an attribute as it is written. -/
inductive ValueText where
  | bare (word : List Char)
  | quoted (quote : Char) (inner : List Char)

namespace ValueText

def text : ValueText → List Char
  | bare word => word
  | quoted quote inner => quote :: (inner ++ [quote])

def content : ValueText → List Char
  | bare word => word
  | quoted _ inner => inner

def isBare : ValueText → Bool
  | bare _ => true
  | quoted .. => false

/-- A value without escapes: an identifier, or a text in quotes that holds no such quote and is one line. -/
inductive IsPlain : ValueText → Prop
  | bare {word : List Char} : IsPlainIdent word → IsPlain (bare word)
  | quoted {quote : Char} {inner : List Char} : quote = '"' ∨ quote = '\'' →
      (∀ c ∈ inner, c ≠ quote ∧ c ≠ '\\' ∧ c ≠ '\n') → IsPlain (quoted quote inner)

end ValueText

/-- A test of an attribute as it is written, with a flag if it has one. -/
structure TestText where
  test : AttributeTest
  value : ValueText
  flag : Option Char

/-- An attribute selector as it is written; without a test, the attribute only has to exist. -/
structure AttributeText where
  name : List Char
  test : Option TestText

/-- The white space in an attribute selector: behind the bracket, the name, the sign, the value and the flag. -/
structure Gaps where
  bracket : List Char
  name : List Char
  sign : List Char
  value : List Char
  flag : List Char

/-- A test up to the end of its selector. -/
def TestText.text (t : TestText) (g : Gaps) : List Char := t.test.sign.toList ++ (g.sign ++ (t.value.text ++ g.value))

/-- The end of a selector, with a flag and the white space behind that. -/
def closing (flag : Option Char) (gap : List Char) : List Char :=
  match flag with
  | none => [']']
  | some c => c :: (gap ++ [']'])

namespace AttributeText

def flag (a : AttributeText) : Option Char := a.test.bind TestText.flag

/-- What stands between the bracket and the end of the selector. -/
def front (a : AttributeText) (g : Gaps) : List Char :=
  g.bracket ++ (a.name ++ (g.name ++ a.test.elim [] (·.text g)))

/-- The selector with the white space in its places. -/
def text (a : AttributeText) (g : Gaps) : List Char := '[' :: (a.front g ++ closing a.flag g.flag)

def simple (a : AttributeText) : Simple :=
  .hasAttribute (String.ofList a.name) (a.test.map fun t => (t.test, String.ofList t.value.content))

/-- Whether the value would run into the flag. -/
def needsGap (a : AttributeText) : Bool := a.test.any fun t => t.value.isBare && t.flag.isSome

/-- No white space but what the flag needs. -/
def tight (a : AttributeText) : Gaps := ⟨[], [], [], if a.needsGap then [' '] else [], []⟩

structure IsPlain (a : AttributeText) : Prop where
  name : IsPlainIdent a.name
  value : ∀ t, a.test = some t → t.value.IsPlain
  flag : ∀ c, a.flag = some c → isCaseFlag c = true

end AttributeText

/-- White space that may stand in the selector. -/
structure Gaps.Fit (g : Gaps) (a : AttributeText) : Prop where
  bracket : IsBlank g.bracket
  name : IsBlank g.name
  sign : IsBlank g.sign
  value : IsBlank g.value
  flag : IsBlank g.flag
  apart : a.needsGap = true → g.value ≠ []

theorem AttributeText.tight_fit (a : AttributeText) : a.tight.Fit a := by
  refine ⟨.nil, .nil, .nil, ?_, .nil, fun needed => ?_⟩
  · rw [tight]
    split
    · decide
    · exact .nil
  · rw [tight, if_pos needed]
    exact List.cons_ne_nil _ _

/-! The parts of an attribute selector. -/

theorem NameForm.plain {word rest : List Char} (hw : ∀ c ∈ word, isNameChar c = true) (hr : StopsAt extendsName rest) :
    NameForm word word rest := by
  induction word with
  | nil => exact .stop (hr.mono fun c letter => by rw [extendsName, letter, Bool.true_or]) (startsEscape_of_stops hr)
  | cons c word ih => exact .char (hw c List.mem_cons_self) (ih fun d hd => hw d (List.mem_cons_of_mem _ hd))

namespace IsPlainIdent

variable {word rest : List Char}

theorem nonempty (h : IsPlainIdent word) : word ≠ [] := by
  rintro rfl
  cases h.starts

theorem ident (h : IsPlainIdent word) (hr : StopsAt extendsName rest) (role : NameRole) (pos : Nat) :
    ident role pos (word ++ rest) = .ok ⟨String.ofList word, word.length⟩ := by
  have starts : startsIdent (word ++ rest) = true := by
    refine (NameForm.plain h.chars .nil).startsIdent h.nonempty ?_ rest
    rw [List.append_nil]
    exact h.starts
  rw [ident.eq_def, if_pos starts]
  exact (NameForm.plain h.chars hr).name h.nonempty role pos

theorem stopsAtSpace (h : IsPlainIdent word) (rest : List Char) : StopsAt isSpace (word ++ rest) :=
  ((NameForm.plain h.chars .nil).begins h.nonempty).stopsAtSpace rest

end IsPlainIdent

theorem ValueText.IsPlain.stopsAtSpace {v : ValueText} (h : v.IsPlain) (rest : List Char) :
    StopsAt isSpace (v.text ++ rest) := by
  cases h with
  | bare ident => exact ident.stopsAtSpace rest
  | quoted quote =>
      refine .cons ?_
      rcases quote with rfl | rfl <;> decide

theorem attributeValue_text {v : ValueText} {rest : List Char} (h : v.IsPlain)
    (hr : v.isBare = true → StopsAt extendsName rest) (pos : Nat) :
    attributeValue pos (v.text ++ rest) = .ok ⟨String.ofList v.content, v.text.length⟩ := by
  cases h with
  | @bare word ident =>
      have read := ident.ident (hr rfl) .attributeValue pos
      cases word with
      | nil => exact absurd rfl ident.nonempty
      | cons c word =>
          have noQuote : ¬ (c = '"' ∨ c = '\'') := by
            have letter := ident.chars c List.mem_cons_self
            rintro (rfl | rfl)
            · exact absurd letter (by decide)
            · exact absurd letter (by decide)
          rw [attributeValue.eq_def]
          exact (if_neg noQuote).trans read
  | @quoted quote inner hq hi =>
      have read := string_quoted hi rest (pos + 1)
      rw [attributeValue.eq_def, ValueText.text, List.cons_append, List.append_assoc, List.singleton_append]
      dsimp only
      rw [if_pos hq, read]
      simp [Except.map, Scan.behind, ValueText.content]
      omega

section
variable {flag : Option Char} (hf : ∀ c, flag = some c → isCaseFlag c = true)
include hf

/-- A selector ends, with a flag or without, where no white space stands behind the flag. -/
theorem attributeEnd_closing {gap : List Char} (hg : IsBlank gap) (pos : Nat) : attributeEnd pos (closing flag gap) =
    if flag = none ∨ gap = [] then .ok ⟨(), (closing flag gap).length⟩ else reject .malformedAttribute pos := by
  cases flag with
  | none => rfl
  | some c =>
      have letter := hf c rfl
      have inside : c ≠ ']' := by
        rintro rfl
        cases letter
      rw [closing, attributeEnd.eq_def]
      dsimp only
      rw [if_neg inside, if_pos letter]
      cases gap with
      | nil => rfl
      | cons d gap =>
          have space := hg d List.mem_cons_self
          rw [if_neg (by simp), List.cons_append]
          split
          · next same =>
              obtain ⟨rfl, -⟩ := List.cons.inj same
              cases space
          · rfl

theorem stopsAt_closing (gap : List Char) : StopsAt isSpace (closing flag gap) := by
  cases flag with
  | none => exact .cons (by decide)
  | some c =>
      refine .cons ?_
      have letter := hf c rfl
      simp only [isCaseFlag, Bool.or_eq_true, beq_iff_eq, or_assoc] at letter
      rcases letter with rfl | rfl | rfl | rfl <;> decide

end

/-- White space or the bracket ends a value that is an identifier. -/
theorem stopsAt_gap {gap : List Char} (hg : IsBlank gap) {flag : Option Char} (apart : flag.isSome = true → gap ≠ [])
    (last : List Char) : StopsAt extendsName (gap ++ closing flag last) := by
  cases gap with
  | cons d gap => exact .cons (not_extendsName_of_isSpace (hg d List.mem_cons_self))
  | nil =>
      cases flag with
      | none => exact .cons (by decide)
      | some c => exact absurd rfl (apart rfl)

/-! Attribute selectors. -/

section
variable {name before between : List Char} (hn : IsPlainIdent name) (hb : IsBlank before) (hw : IsBlank between)
include hn hb hw

theorem attributeSelector_exists (pos : Nat) : attributeSelector pos (before ++ (name ++ (between ++ [']']))) =
    .ok ⟨.hasAttribute (String.ofList name) none, (before ++ (name ++ (between ++ [']']))).length⟩ := by
  have stops : StopsAt extendsName (between ++ [']']) :=
    hw.stopsAt (fun _ => not_extendsName_of_isSpace) (.cons (by decide))
  have named := hn.ident stops .attributeName (pos + before.length)
  have blank : spaces (between ++ [']']) = between.length := spaces_append hw (.cons (by decide))
  have closed (pos : Nat) : attributeTest pos [']'] = .ok ⟨none, 1⟩ := rfl
  simp only [attributeSelector, spaces_append hb (hn.stopsAtSpace _), List.drop_left, named, bind, Except.bind,
    ← List.drop_drop, blank, closed, pure, Except.pure, List.length_append, List.length_singleton, Nat.add_assoc]

/-- What is read in front of the end of the selector, and where the end is read. -/
theorem attributeSelector_test {t : TestText} {g : Gaps} {ending : List Char} (hv : t.value.IsPlain)
    (hs : IsBlank g.sign) (hl : IsBlank g.value) (he : StopsAt isSpace ending)
    (apart : t.value.isBare = true → StopsAt extendsName (g.value ++ ending)) (pos : Nat) :
    attributeSelector pos (before ++ (name ++ (between ++ (t.text g ++ ending)))) =
      (attributeEnd (pos + (before ++ (name ++ (between ++ t.text g))).length) ending).map fun stop =>
        ⟨.hasAttribute (String.ofList name) (some (t.test, String.ofList t.value.content)),
          (before ++ (name ++ (between ++ t.text g))).length + stop.size⟩ := by
  have sign := stops_sign t.test (g.sign ++ (t.value.text ++ (g.value ++ ending)))
  have named := hn.ident (hw.stopsAt (fun _ => not_extendsName_of_isSpace) sign.1) .attributeName (pos + before.length)
  have second := spaces_append hw sign.2
  have third := spaces_append hs (hv.stopsAtSpace (g.value ++ ending))
  have fourth := spaces_append hl he
  simp only [TestText.text, List.append_assoc, attributeSelector, spaces_append hb (hn.stopsAtSpace _), List.drop_left,
    named, bind, Except.bind, ← List.drop_drop, second, attributeTest_sign, third, attributeValue_text hv apart, fourth,
    pure, Except.pure, List.length_append, Nat.add_assoc]
  cases attributeEnd _ ending <;> rfl

end

section
variable {a : AttributeText} {g : Gaps} (plain : a.IsPlain) (fit : g.Fit a)
include plain fit

/-- An attribute selector is read to its end, unless white space stands behind its flag. -/
theorem attributeSelector_text (pos : Nat) : attributeSelector pos (a.front g ++ closing a.flag g.flag) =
    (if a.flag = none ∨ g.flag = [] then .ok a.simple
      else reject .malformedAttribute (pos + (a.front g).length)).map
        (⟨·, (a.front g ++ closing a.flag g.flag).length⟩) := by
  have closed := attributeEnd_closing plain.flag fit.flag (pos + (a.front g).length)
  obtain ⟨name, test⟩ := a
  cases test with
  | none =>
      rw [if_pos (.inl rfl)]
      simp only [AttributeText.front, Option.elim_none, List.append_nil, List.append_assoc]
      exact attributeSelector_exists plain.name fit.bracket fit.name pos
  | some t =>
      have stops (bare : t.value.isBare = true) : StopsAt extendsName (g.value ++ closing t.flag g.flag) :=
        stopsAt_gap fit.value (fun some => fit.apart (by rw [AttributeText.needsGap, Option.any_some, bare, some]; rfl)) _
      have read := attributeSelector_test plain.name fit.bracket fit.name (plain.value t rfl) fit.sign fit.value
        (stopsAt_closing plain.flag g.flag) stops pos
      simp only [AttributeText.front, Option.elim_some, List.append_assoc] at closed ⊢
      refine read.trans ?_
      rw [closed]
      split
      · simp [Except.map, AttributeText.simple, AttributeText.flag, Nat.add_assoc]
      · rfl

/-- An attribute selector alone in a text is accepted unless white space stands behind its flag, and else rejected at the
flag. -/
theorem parse_attribute : parse (String.ofList (a.text g)) =
    if a.flag = none ∨ g.flag = [] then .ok [⟨[a.simple], []⟩]
    else .error ⟨.malformedAttribute, (a.front g).length + 1⟩ := by
  have read : begun '[' (a.front g ++ closing a.flag g.flag) 1 = _ := attributeSelector_text plain fit 1
  rw [AttributeText.text, parse_begun rfl read, Nat.add_comm 1]
  split <;> rfl

end

theorem parse_tight {a : AttributeText} (plain : a.IsPlain) :
    parse (String.ofList (a.text a.tight)) = .ok [⟨[a.simple], []⟩] := by
  rw [parse_attribute plain a.tight_fit, if_pos (.inr rfl)]

/-- What white space in an attribute selector does to the reading. -/
structure ReadsSpaced (a : AttributeText) (g : Gaps) : Prop where
  tight : parse (String.ofList (a.text a.tight)) = .ok [⟨[a.simple], []⟩]
  /-- The selector is the same just if it has no flag or none stands behind the flag. -/
  same : parse (String.ofList (a.text g)) = parse (String.ofList (a.text a.tight)) ↔ a.flag = none ∨ g.flag = []
  /-- If some does, the selector is rejected at the flag. -/
  rejected : ∀ c, a.flag = some c → g.flag ≠ [] → ∃ front, a.text g = front ++ c :: (g.flag ++ [']']) ∧
    parse (String.ofList (a.text g)) = .error ⟨.malformedAttribute, front.length⟩

/-- White space does not matter in an attribute selector written without escapes, but for that behind its flag, which no
selector may have. -/
theorem parse_spaced (a : AttributeText) (g : Gaps) (plain : a.IsPlain) (fit : g.Fit a) : ReadsSpaced a g := by
  have tight := parse_tight plain
  refine ⟨tight, ?_, fun c flagged gap => ?_⟩
  · rw [tight, parse_attribute plain fit]
    split
    · next whole => exact iff_of_true rfl whole
    · next apart => exact iff_of_false nofun apart
  · have apart : ¬ (a.flag = none ∨ g.flag = []) := by
      rintro (none | closed)
      · exact nomatch flagged.symm.trans none
      · exact gap closed
    refine ⟨'[' :: a.front g, ?_, ?_⟩
    · rw [AttributeText.text, flagged]
      rfl
    · rw [parse_attribute plain fit, if_neg apart, List.length_cons]

/-- A selector with white space of each kind, and a flag. -/
theorem parse_spaced_flag : ∃ a g, AttributeText.IsPlain a ∧ Gaps.Fit g a ∧ ReadsSpaced a g ∧ a.flag = some 'S' ∧
    g.flag = [] ∧ a.text g = "[\n-x-é \t|=\r\x0cen S]".toList ∧ a.text a.tight = "[-x-é|=en S]".toList := by
  have name : IsPlainIdent "-x-é".toList := by decide +kernel
  have value : IsPlainIdent "en".toList := by decide +kernel
  have plain : AttributeText.IsPlain ⟨"-x-é".toList, some ⟨.dashes, .bare "en".toList, some 'S'⟩⟩ := by
    refine ⟨name, ?_, ?_⟩
    · rintro t ⟨⟩
      exact .bare value
    · rintro c ⟨⟩
      rfl
  have fit : Gaps.Fit ⟨['\n'], [' ', '\t'], ['\r', '\x0c'], [' '], []⟩
      ⟨"-x-é".toList, some ⟨.dashes, .bare "en".toList, some 'S'⟩⟩ :=
    ⟨by decide, by decide, by decide, by decide, by decide, fun _ => List.cons_ne_nil _ _⟩
  exact ⟨_, _, plain, fit, parse_spaced _ _ plain fit, rfl, rfl, rfl, rfl⟩

/-- White space behind the flag, for which the selector is rejected. -/
theorem parse_spaced_end : ∃ a g, AttributeText.IsPlain a ∧ Gaps.Fit g a ∧ a.text g = "[a=b i ]".toList ∧
    parse "[a=b i ]" = .error ⟨.malformedAttribute, 5⟩ ∧ a.text a.tight = "[a=b i]".toList ∧
      parse "[a=b i]" = .ok [⟨[.hasAttribute "a" (some (.equals, "b"))], []⟩] := by
  have name : IsPlainIdent ['a'] := by decide
  have value : IsPlainIdent ['b'] := by decide
  have plain : AttributeText.IsPlain ⟨['a'], some ⟨.equals, .bare ['b'], some 'i'⟩⟩ := by
    refine ⟨name, ?_, ?_⟩
    · rintro t ⟨⟩
      exact .bare value
    · rintro c ⟨⟩
      rfl
  have fit : Gaps.Fit ⟨[], [], [], [' '], [' ']⟩ ⟨['a'], some ⟨.equals, .bare ['b'], some 'i'⟩⟩ :=
    ⟨.nil, .nil, .nil, by decide, by decide, fun _ => List.cons_ne_nil _ _⟩
  have spaced : AttributeText.text ⟨['a'], some ⟨.equals, .bare ['b'], some 'i'⟩⟩ ⟨[], [], [], [' '], [' ']⟩ =
      "[a=b i ]".toList := rfl
  have tight : AttributeText.text ⟨['a'], some ⟨.equals, .bare ['b'], some 'i'⟩⟩
      (AttributeText.tight ⟨['a'], some ⟨.equals, .bare ['b'], some 'i'⟩⟩) = "[a=b i]".toList := rfl
  have rejected := parse_attribute plain fit
  have accepted := parse_tight plain
  rw [spaced, String.ofList_toList] at rejected
  rw [tight, String.ofList_toList] at accepted
  exact ⟨_, _, plain, fit, spaced, rejected, tight, accepted⟩

end StyleAudit.Selector
