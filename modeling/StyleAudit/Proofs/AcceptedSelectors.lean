import StyleAudit.Proofs.GrammarForms
import StyleAudit.Proofs.UnquotedReading
/-!
Accepted selectors are sound items without damage. The grammar is followed scanner by scanner; what one takes from the
front of a text is covered by items that stand in front of what it leaves.
-/
namespace StyleAudit.Selector

open Text (Scan)

/-- The text begins with that many characters that are undamaged items. -/
structure Covers (text : List Char) (n : Nat) (items : List Item) : Prop where
  size : n ≤ text.length
  taken : text.take n = textOf items
  sound : AreSound (text.drop n).head? items
  undamaged : damageOf items = []

theorem textOf_append (before behind : List Item) : textOf (before ++ behind) = textOf before ++ textOf behind :=
  List.flatMap_append

theorem damageOf_append (before behind : List Item) :
    damageOf (before ++ behind) = damageOf before ++ damageOf behind :=
  List.flatMap_append

theorem Covers.add {text : List Char} {n m : Nat} {before behind : List Item} (h : Covers text n before)
    (h' : Covers (text.drop n) m behind) : Covers text (n + m) (before ++ behind) := by
  have size := h.size
  have size' := h'.size
  rw [List.length_drop] at size'
  refine ⟨by omega, ?_, ?_, ?_⟩
  · rw [List.take_add, h.taken, h'.taken, textOf_append]
  · refine Row.append.mpr ⟨?_, ?_⟩
    · have rest : (text.drop n).head? = (textOf behind).head?.or (text.drop (n + m)).head? := by
        rw [← h'.taken, ← List.drop_drop, ← List.head?_append, List.take_append_drop]
      have sound := h.sound
      rwa [rest] at sound
    · have sound := h'.sound
      rwa [List.drop_drop] at sound
  · rw [damageOf_append, h.undamaged, h'.undamaged]
    rfl

/-- Items that are no negations. -/
def AreAtoms (items : List Item) : Prop := ∃ atoms : List Atom, items = atoms.map Item.atom

theorem AreAtoms.append {before behind : List Item} (h : AreAtoms before) (h' : AreAtoms behind) :
    AreAtoms (before ++ behind) := by
  obtain ⟨atoms, rfl⟩ := h
  obtain ⟨atoms', rfl⟩ := h'
  exact ⟨atoms ++ atoms', List.map_append.symm⟩

def plainAtoms (text : List Char) : List Atom := text.map Atom.char

theorem text_plainAtoms (text : List Char) : (plainAtoms text).flatMap Atom.text = text := by
  rw [plainAtoms, List.flatMap_map]
  exact List.flatMap_singleton' text

theorem row_plainAtoms {text : List Char} (h : ∀ c ∈ text, isPlain c = true) (next : Option Char) :
    Row Atom.text Atom.Stands next (plainAtoms text) := by
  induction text with
  | nil => trivial
  | cons c text ih => exact ⟨h c List.mem_cons_self, ih fun d hd => h d (List.mem_cons_of_mem c hd)⟩

theorem damage_plainAtoms (text : List Char) : (plainAtoms text).flatMap Atom.damage = [] := by
  rw [plainAtoms, List.flatMap_map, List.flatMap_eq_nil_iff]
  exact fun _ _ => rfl

theorem textOf_atoms (atoms : List Atom) : textOf (atoms.map Item.atom) = atoms.flatMap Atom.text := by
  rw [textOf, List.flatMap_map]
  rfl

theorem damageOf_atoms (atoms : List Atom) : damageOf (atoms.map Item.atom) = atoms.flatMap Atom.damage := by
  rw [damageOf, List.flatMap_map]
  rfl

theorem areSound_atoms {atoms : List Atom} {next : Option Char} :
    AreSound next (atoms.map Item.atom) ↔ Row Atom.text Atom.Stands next atoms := by
  induction atoms with
  | nil => exact Iff.rfl
  | cons a atoms ih =>
      rw [List.map_cons, AreSound, Row, Row, ← AreSound, ih, ← textOf, textOf_atoms]
      rfl

theorem Passes.covers {text : List Char} {n : Nat} (h : Passes text n) :
    Covers text n ((plainAtoms (text.take n)).map Item.atom) := by
  refine ⟨h.1, ?_, areSound_atoms.mpr (row_plainAtoms h.2 _), ?_⟩
  · rw [textOf_atoms, text_plainAtoms]
  · rw [damageOf_atoms, damage_plainAtoms]

/-! Pseudos. -/

theorem elementNames_of {name : String} {element : PseudoElement} (h : PseudoElement.ofName? name = some element) :
    name ∈ elementNames := by
  have same := List.find?_some h
  rw [decide_eq_true_eq] at same
  exact List.mem_map.mpr ⟨element, List.mem_of_find?_eq_some h, same⟩

theorem classNames_of {name : String} {pseudo : PseudoClass} (h : PseudoClass.ofName? name = some pseudo) :
    name ∈ classNames := by
  have same := List.find?_some h
  rw [decide_eq_true_eq] at same
  exact List.mem_map.mpr ⟨pseudo, List.mem_of_find?_eq_some h, same⟩

theorem functionNames_of {name : String} {pseudo : PositionClass} (h : PositionClass.ofName? name = some pseudo) :
    name ∈ functionNames := by
  have same := List.find?_some h
  rw [decide_eq_true_eq] at same
  rw [← same]
  cases pseudo <;> decide +kernel

/-- A pseudo at the start of a text, as a site. -/
structure ReadsSite (text : List Char) (n : Nat) (s : Site) : Prop where
  size : n ≤ text.length
  taken : text.take n = s.text
  sound : s.IsSound
  ends : s.EndsBefore (text.drop n).head?
  undamaged : s.damage = []

theorem ReadsSite.covers {text : List Char} {n : Nat} {s : Site} (h : ReadsSite text n s) :
    Covers text n ([Atom.site s].map Item.atom) := by
  refine ⟨h.size, ?_, areSound_atoms.mpr ⟨⟨h.sound, h.ends⟩, trivial⟩, ?_⟩
  · rw [textOf_atoms, h.taken, List.flatMap_singleton]
    rfl
  · rw [damageOf_atoms, List.flatMap_singleton]
    exact h.undamaged

theorem take_takeWhile_append (p : Char → Bool) (text : List Char) :
    text.takeWhile p ++ text.drop (text.takeWhile p).length = text := by
  have front := takeWhile_eq_take p text
  calc text.takeWhile p ++ text.drop (text.takeWhile p).length
      = text.take (text.takeWhile p).length ++ text.drop (text.takeWhile p).length := by rw [front]
    _ = text := List.take_append_drop _ text

theorem pseudoElement_name {pos : Nat} {name : String} {rest : List Char} {simple : Simple}
    (h : pseudoElement pos name rest = .ok simple) : name.toLower ∈ elementNames ∧ rest.head? ≠ some '(' := by
  unfold pseudoElement at h
  split at h
  · next element found opening => exact ⟨elementNames_of found, by simpa using opening⟩
  · split at h <;> cases h

theorem plainPseudoClass_name {pos : Nat} {name : String} {simple : Simple}
    (h : plainPseudoClass pos name = .ok simple) : name.toLower ∈ classNames := by
  unfold plainPseudoClass at h
  split at h
  · next pseudo found => exact classNames_of found
  · split at h <;> cases h

theorem classNames_no_element : ∀ n ∈ classNames, n ∉ elementNames := by decide +kernel

/-- An argument that is read as a language or as a position. -/
theorem pseudoFunction_sound {start stop : Nat} {word argument : List Char} {simple : Simple}
    (h : pseudoFunction start stop (String.ofList word) argument = .ok simple) :
    Site.IsSound ⟨word, some argument, false, false⟩ := by
  have sound (name : lower word ∈ functionNames) (chars : ∀ c ∈ argument, isBareChar c = true)
      (zero : lower word ∈ zeroNames → Text.trim argument ≠ ['0']) :
      Site.IsSound ⟨word, some argument, false, false⟩ := by
    refine ⟨fun none => by (cases none), fun _ _ => name, ?_, ?_, fun zeroed => by cases zeroed⟩
    · rintro a has
      obtain rfl := Option.some.inj has
      exact chars
    · rintro a has
      obtain rfl := Option.some.inj has
      exact zero
  unfold pseudoFunction at h
  split at h
  · next lang =>
      have lang : lower word = "lang" := lang
      refine sound (by rw [lang]; decide) (language_bare h) ?_
      rw [lang]
      exact fun mem => absurd mem (by decide +kernel)
  · split at h
    · next pseudo found =>
        split at h
        · next position read => exact sound (functionNames_of found) (position_bare read) fun _ => position_nonzero read
        · cases h
    · cases h

/-- The end of a name, as the end of a pseudo without an argument. -/
theorem ends_name {text : List Char} (opening : text.head? ≠ some '(') (h : StopsAt isNameChar text) :
    ∀ c, text.head? = some c → (isWordChar c || c == '(') = false := by
  intro c hc
  rw [Bool.or_eq_false_iff]
  refine ⟨?_, ?_⟩
  · cases word : isWordChar c with
    | false => rfl
    | true =>
        have stop := h c hc
        rw [isNameChar_of_isWordChar word] at stop
        cases stop
  · rw [beq_eq_false_iff_ne]
    rintro rfl
    exact opening hc

theorem elementSite {text : List Char} {simple : Simple} {pos : Nat}
    (h : pseudoElement pos (String.ofList (text.takeWhile isNameChar)) (text.drop (text.takeWhile isNameChar).length) =
      .ok simple) :
    ReadsSite (':' :: ':' :: text) (1 + (1 + (text.takeWhile isNameChar).length))
      ⟨text.takeWhile isNameChar, none, false, false⟩ := by
  obtain ⟨name, opening⟩ := pseudoElement_name h
  have name : lower (text.takeWhile isNameChar) ∈ elementNames := name
  have stops := stopsAt_drop_takeWhile isNameChar text
  have size : 1 + (1 + (text.takeWhile isNameChar).length) = (text.takeWhile isNameChar).length + 2 := by omega
  have element : Site.isElement ⟨text.takeWhile isNameChar, none, false, false⟩ = true := by simp [Site.isElement, name]
  have colons : Site.colons ⟨text.takeWhile isNameChar, none, false, false⟩ = .two := by simp [Site.colons, element]
  rw [size]
  refine ⟨?_, ?_, ⟨?_, ?_, ?_, ?_, ?_⟩, ?_, rfl⟩
  · simpa using (List.takeWhile_prefix isNameChar).length_le
  · rw [Site.text, colons, List.take_succ_cons, List.take_succ_cons, takeWhile_eq_take]
    simp [spelling, Colons.text, Site.shown, argumentText]
  · exact fun _ => List.mem_append_left _ name
  · exact fun _ has => by cases has
  · exact fun _ has => by cases has
  · exact fun _ has => by cases has
  · exact fun zeroed => by cases zeroed
  · rw [List.drop_succ_cons, List.drop_succ_cons]
    exact fun _ => ends_name opening stops

theorem classSite {text : List Char} {simple : Simple} {pos : Nat}
    (h : plainPseudoClass pos (String.ofList (text.takeWhile isNameChar)) = .ok simple)
    (opening : (text.drop (text.takeWhile isNameChar).length).head? ≠ some '(') :
    ReadsSite (':' :: text) (1 + (text.takeWhile isNameChar).length) ⟨text.takeWhile isNameChar, none, false, false⟩ := by
  have name : lower (text.takeWhile isNameChar) ∈ classNames := plainPseudoClass_name h
  have stops := stopsAt_drop_takeWhile isNameChar text
  have size : 1 + (text.takeWhile isNameChar).length = (text.takeWhile isNameChar).length + 1 := by omega
  have other : Site.isElement ⟨text.takeWhile isNameChar, none, false, false⟩ = false := by
    simp [Site.isElement, classNames_no_element _ name]
  have colons : Site.colons ⟨text.takeWhile isNameChar, none, false, false⟩ = .one := by simp [Site.colons, other]
  rw [size]
  refine ⟨?_, ?_, ⟨?_, ?_, ?_, ?_, ?_⟩, ?_, rfl⟩
  · simpa using (List.takeWhile_prefix isNameChar).length_le
  · rw [Site.text, colons, List.take_succ_cons, takeWhile_eq_take]
    simp [spelling, Colons.text, Site.shown, argumentText]
  · exact fun _ => List.mem_append_right _ name
  · exact fun _ has => by cases has
  · exact fun _ has => by cases has
  · exact fun _ has => by cases has
  · exact fun zeroed => by cases zeroed
  · rw [List.drop_succ_cons]
    exact fun _ => ends_name opening stops

/-- A name in front of an argument in parentheses. -/
theorem argument_parts {text rest : List Char} {size : Nat} (h : IsUnquoted text)
    (opening : text.drop (text.takeWhile isNameChar).length = '(' :: rest) (hs : argumentSize 0 none rest = some size) :
    ∃ behind, text = text.takeWhile isNameChar ++ '(' :: (rest.take size ++ ')' :: behind) ∧
      (rest.take size).length = size := by
  have inside : IsUnquoted rest := by
    have tail := h.drop (text.takeWhile isNameChar).length
    rw [opening] at tail
    exact tail.tail
  obtain ⟨behind, closing⟩ := argumentSize_unquoted inside hs
  refine ⟨behind, ?_, ?_⟩
  · rw [← closing, List.take_append_drop, ← opening, take_takeWhile_append]
  · have length := congrArg List.length closing
    rw [List.length_drop, List.length_cons] at length
    rw [List.length_take]
    omega

theorem functionSite {word argument : List Char} {simple : Simple} {start stop : Nat}
    (h : pseudoFunction start stop (String.ofList word) argument = .ok simple) (behind : List Char) :
    ReadsSite (':' :: (word ++ '(' :: (argument ++ ')' :: behind))) (1 + (word.length + 1 + argument.length + 1))
      ⟨word, some argument, false, false⟩ := by
  have text : Site.text ⟨word, some argument, false, false⟩ = ':' :: (word ++ '(' :: (argument ++ [')'])) := rfl
  have whole : ':' :: (word ++ '(' :: (argument ++ ')' :: behind)) =
      Site.text ⟨word, some argument, false, false⟩ ++ behind := by
    rw [text]
    simp
  have size : 1 + (word.length + 1 + argument.length + 1) = (Site.text ⟨word, some argument, false, false⟩).length := by
    rw [text]
    simp
    omega
  rw [whole, size]
  refine ⟨by simp, by rw [List.take_left], pseudoFunction_sound h, fun none => by (cases none), rfl⟩

/-- A pseudo that is no negation is read as a site. -/
theorem pseudo_simple {text : List Char} (h : IsUnquoted text) {pos n : Nat} {simple : Simple}
    (hs : pseudo pos text = .ok ⟨.simple simple, n⟩) : ∃ s, ReadsSite (':' :: text) (1 + n) s := by
  cases pseudo_form hs with
  | element found element =>
      obtain ⟨-, rfl⟩ := ident_unquoted h.tail found
      exact ⟨_, elementSite element⟩
  | function found opening closing _ function =>
      obtain ⟨-, rfl⟩ := ident_unquoted h found
      obtain ⟨behind, parts, length⟩ := argument_parts h opening closing
      have site := functionSite function behind
      rw [← parts, length] at site
      exact ⟨_, site⟩
  | plain found closed plain =>
      obtain ⟨-, rfl⟩ := ident_unquoted h found
      exact ⟨_, classSite plain closed⟩

/-- A negation and its argument. -/
theorem pseudo_negation {text : List Char} (h : IsUnquoted text) {pos n start size : Nat}
    (hs : pseudo pos text = .ok ⟨.negation start size, n⟩) : ∃ word inner behind,
      text = word ++ '(' :: (inner ++ ')' :: behind) ∧ lower word = "not" ∧ start = word.length + 1 ∧
        size = inner.length ∧ n = start + size + 1 := by
  cases pseudo_form hs with
  | negation found opening closing not =>
      obtain ⟨-, rfl⟩ := ident_unquoted h found
      obtain ⟨behind, parts, length⟩ := argument_parts h opening closing
      exact ⟨_, _, behind, parts, not, rfl, length.symm, rfl⟩

/-! Compounds. -/

/-- The text begins with that many characters that are undamaged items, among them a negation only if one was read. -/
def ReadsItems (text : List Char) (n : Nat) (value : Compound) : Prop :=
  ∃ items, Covers text n items ∧ ((∀ a, Simple.negation a ∉ value) → AreAtoms items)

theorem ReadsItems.add {text : List Char} {n m : Nat} {front back : Compound} (h : ReadsItems text n front)
    (h' : ReadsItems (text.drop n) m back) : ReadsItems text (n + m) (front ++ back) := by
  obtain ⟨items, covers, atoms⟩ := h
  obtain ⟨items', covers', atoms'⟩ := h'
  refine ⟨items ++ items', covers.add covers', fun none => ?_⟩
  exact (atoms fun a mem => none a (List.mem_append_left _ mem)).append
    (atoms' fun a mem => none a (List.mem_append_right _ mem))

theorem Passes.reads {text : List Char} {n : Nat} (h : Passes text n) (value : Compound) : ReadsItems text n value :=
  ⟨_, h.covers, fun _ => ⟨_, rfl⟩⟩

theorem passes_typeSelector {text : List Char} (h : IsUnquoted text) {pos : Nat} {s : Scan Compound}
    (hs : typeSelector pos text = .ok s) : Passes text s.size := by
  unfold typeSelector at hs
  split at hs
  · next star =>
      obtain rfl := Except.ok.inj hs
      obtain ⟨rest, rfl⟩ := List.head?_eq_some_iff.mp star
      exact .one (by decide)
  · split at hs
    · cases found : ident .element pos text with
      | error e => rw [found] at hs; cases hs
      | ok name =>
          rw [found] at hs
          obtain rfl := Except.ok.inj hs
          exact passes_ident h found
    · obtain rfl := Except.ok.inj hs
      exact .zero text

/-- Simple selectors are read as items from texts shorter than that. -/
def SimplesRead (length : Nat) : Prop := ∀ text, text.length < length → IsUnquoted text → ∀ pos s,
  simples pos text = .ok s → ReadsItems text s.size s.value

theorem SimplesRead.compound {text : List Char} (ih : SimplesRead (text.length + 1)) (h : IsUnquoted text) {pos : Nat}
    {s : Scan Compound} (hs : compound pos text = .ok s) : ReadsItems text s.size s.value := by
  obtain ⟨start, more, front, back, -, rfl⟩ := compound_form hs
  have shorter : (text.drop start.size).length < text.length + 1 := by
    rw [List.length_drop]
    omega
  exact ((passes_typeSelector h front).reads start.value).add (ih _ shorter (h.drop _) _ _ back)

theorem ends_blank {c : Char} (h : Text.isBlank c = true) : (isWordChar c || c == '(') = false := by
  rw [isBlank_iff] at h
  rw [Bool.or_eq_false_iff, Bool.eq_false_iff, ne_eq, isWordChar_iff, beq_eq_false_iff_ne, Ne, char_eq_iff]
  change _ ∧ c.toNat ≠ 40
  omega

/-- The argument of a negation, as atoms. -/
theorem SimplesRead.negated {argument : List Char} (ih : SimplesRead (argument.length + 1)) (h : IsUnquoted argument)
    {pos : Nat} {simple : Simple} (hs : negated pos argument = .ok simple) : ∃ atoms : List Atom,
      argument = atoms.flatMap Atom.text ∧ (∃ a ∈ atoms, a.isBlank = false) ∧
        Row Atom.text Atom.Stands (some ')') atoms ∧ atoms.flatMap Atom.damage = [] := by
  obtain ⟨visible, found, read, done, alone⟩ := negated_form hs
  obtain ⟨same, noNegation, -⟩ := single_form alone
  obtain ⟨before, behind, parts, blank, blank'⟩ := Text.trim_parts argument
  have inside : IsUnquoted (Text.trim argument) := h.mono fun c hc => by rw [parts]; simp [hc]
  have shorter : SimplesRead ((Text.trim argument).length + 1) := fun text size =>
    ih text (size.trans_le (Nat.succ_le_succ (Text.length_trim_le argument)))
  obtain ⟨items, covers, atoms⟩ := shorter.compound inside read
  have none : ∀ a, Simple.negation a ∉ found.value := by
    intro a mem
    rw [same] at mem
    exact noNegation a (List.mem_singleton.mp mem).symm
  obtain ⟨inner, rfl⟩ := atoms none
  have text : Text.trim argument = inner.flatMap Atom.text := by
    rw [← textOf_atoms, ← covers.taken, List.take_of_length_le (List.drop_eq_nil_iff.mp done)]
  have row := areSound_atoms.mp covers.sound
  rw [done] at row
  have plain {c : Char} (white : Text.isBlank c = true) : isPlain c = true :=
    Site.isPlain_of_isBareChar (isBareChar_of_isBlank white)
  refine ⟨plainAtoms before ++ (inner ++ plainAtoms behind), ?_, ?_, ?_, ?_⟩
  · rw [List.flatMap_append, List.flatMap_append, text_plainAtoms, text_plainAtoms, ← text]
    exact parts
  · obtain ⟨a, more, rfl⟩ : ∃ a more, inner = a :: more := by
      refine List.exists_cons_of_ne_nil fun none => visible ?_
      rw [text, none]
      rfl
    refine ⟨a, by simp, ?_⟩
    cases a with
    | char c => exact (Text.trim_ends argument).1 c (by rw [text]; rfl)
    | site s => rfl
  · refine Row.append.mpr ⟨row_plainAtoms (fun c hc => plain (blank c hc)) _, Row.append.mpr ⟨?_, ?_⟩⟩
    · refine row.before fun _ _ ha => ha.before fun c hc => ?_
      rw [text_plainAtoms] at hc
      rcases Option.or_eq_some_iff.mp hc with first | ⟨-, closing⟩
      · exact ends_blank (blank' c (List.mem_of_mem_head? first))
      · obtain rfl := Option.some.inj closing
        decide
    · exact row_plainAtoms (fun c hc => plain (blank' c hc)) _
  · have undamaged := covers.undamaged
    rw [damageOf_atoms] at undamaged
    rw [List.flatMap_append, List.flatMap_append, damage_plainAtoms, damage_plainAtoms, undamaged]
    rfl

/-- A negation, as one item. -/
theorem negation_covers {text word inner behind : List Char} (parts : text = word ++ '(' :: (inner ++ ')' :: behind))
    (name : lower word = "not") {atoms : List Atom} (same : inner = atoms.flatMap Atom.text)
    (visible : ∃ a ∈ atoms, a.isBlank = false) (row : Row Atom.text Atom.Stands (some ')') atoms)
    (undamaged : atoms.flatMap Atom.damage = []) :
    Covers (':' :: text) (1 + (word.length + 1 + inner.length + 1)) [.negation word atoms false] := by
  have text_ : textOf [.negation word atoms false] = ':' :: (word ++ '(' :: (inner ++ [')'])) := by
    rw [textOf, List.flatMap_singleton, same]
    rfl
  have whole : ':' :: text = textOf [.negation word atoms false] ++ behind := by
    rw [text_, parts]
    simp
  have size : 1 + (word.length + 1 + inner.length + 1) = (textOf [.negation word atoms false]).length := by
    rw [text_]
    simp
    omega
  rw [whole, size]
  refine ⟨by simp, by rw [List.take_left], ⟨⟨name, visible, row⟩, trivial⟩, ?_⟩
  rw [damageOf, List.flatMap_singleton]
  exact undamaged

/-- What is read in front of the simple selectors behind it. -/
theorem ReadsItems.cons {c : Char} {rest : List Char} {n length pos : Nat} {simple : Simple} {more : Scan Compound}
    (h : ReadsItems (c :: rest) (1 + n) [simple]) (size : (c :: rest).length < length + 1) (ih : SimplesRead length)
    (hu : IsUnquoted (c :: rest)) (tail : simples (pos + (1 + n)) (rest.drop n) = .ok more) :
    ReadsItems (c :: rest) (1 + n + more.size) (simple :: more.value) := by
  have shorter : (rest.drop n).length < length := by
    rw [List.length_cons] at size
    rw [List.length_drop]
    omega
  refine h.add ?_
  rw [drop_cons_add]
  exact ih _ shorter (hu.tail.drop n) _ _ tail

/-- A negation that is read as simple selectors are, with what it holds. -/
theorem negation_reads {length : Nat} (ih : SimplesRead length) {rest : List Char}
    (size : (':' :: rest).length < length + 1) (hu : IsUnquoted (':' :: rest)) {pos pos' start width n : Nat}
    {simple : Simple} (read : pseudo pos rest = .ok ⟨.negation start width, n⟩)
    (argument : negated pos' ((rest.drop start).take width) = .ok simple) :
    ReadsItems (':' :: rest) (1 + n) [.negation simple] := by
  obtain ⟨word, inner, behind, parts, name, rfl, rfl, rfl⟩ := pseudo_negation hu.tail read
  have cut : (rest.drop (word.length + 1)).take inner.length = inner := by
    rw [parts, ← List.drop_drop, List.drop_left, List.drop_succ_cons, List.drop_zero, List.take_left]
  rw [cut] at argument
  have sub : inner ⊆ rest := by
    rw [parts]
    intro d hd
    simp [hd]
  have fewer : inner.length + 1 ≤ length := by
    have whole := congrArg List.length parts
    simp only [List.length_append, List.length_cons] at whole size
    omega
  have inside : SimplesRead (inner.length + 1) := fun text size => ih text (size.trans_le fewer)
  obtain ⟨atoms, same, visible, row, undamaged⟩ := inside.negated (hu.tail.mono sub) argument
  have covers := negation_covers parts name same visible row undamaged
  exact ⟨_, covers, fun none => absurd List.mem_cons_self (none simple)⟩

theorem simplesRead (length : Nat) : SimplesRead length := by
  -- on the length, since the argument of a negation is taken from the middle of the text
  induction length with
  | zero => exact fun _ size => absurd size (Nat.not_lt_zero _)
  | succ length ih =>
      intro text size hu pos s hs
      cases simples_form hs with
      | stop => exact (Passes.zero text).reads []
      | pseudo read tail =>
          obtain ⟨site, reads⟩ := pseudo_simple hu.tail read
          exact ReadsItems.cons ⟨_, reads.covers, fun _ => ⟨_, rfl⟩⟩ size ih hu tail
      | negation read argument tail => exact .cons (negation_reads ih size hu read argument) size ih hu tail
      | className found tail =>
          exact .cons (((Passes.one (by decide)).add (passes_ident hu.tail found)).reads _) size ih hu tail
      | id found tail =>
          exact .cons (((Passes.one (by decide)).add (passes_name hu.tail found)).reads _) size ih hu tail
      | @nesting rest more tail =>
          exact .cons (((Passes.one (by decide)).add (.zero rest)).reads _) size ih hu tail
      | hasAttribute found tail =>
          exact .cons (((Passes.one (by decide)).add (passes_attributeSelector hu.tail found)).reads _) size ih hu tail

/-! Selectors. -/

/-- The text begins with that many characters that are undamaged items. -/
def IsCovered (text : List Char) (n : Nat) : Prop := ∃ items, Covers text n items

theorem IsCovered.add {text : List Char} {n m : Nat} (h : IsCovered text n) (h' : IsCovered (text.drop n) m) :
    IsCovered text (n + m) := by
  obtain ⟨items, covers⟩ := h
  obtain ⟨items', covers'⟩ := h'
  exact ⟨items ++ items', covers.add covers'⟩

theorem Passes.isCovered {text : List Char} {n : Nat} (h : Passes text n) : IsCovered text n := ⟨_, h.covers⟩

theorem compound_covered {text : List Char} (h : IsUnquoted text) {pos : Nat} {s : Scan Compound}
    (hs : compound pos text = .ok s) : IsCovered text s.size := by
  obtain ⟨items, covers, -⟩ := (simplesRead (text.length + 1)).compound h hs
  exact ⟨items, covers⟩

theorem passes_joint {blank : Bool} {text : List Char} {sign : Combinator} {m : Nat}
    (h : joint blank text = (.combinator sign, m)) : Passes text m := by
  unfold joint at h
  split at h
  · cases h
  · cases h
  · obtain ⟨-, rfl⟩ := Prod.mk.inj h
    exact .one (by decide)
  · obtain ⟨-, rfl⟩ := Prod.mk.inj h
    exact .one (by decide)
  · obtain ⟨-, rfl⟩ := Prod.mk.inj h
    exact .one (by decide)
  · obtain ⟨-, rfl⟩ := Prod.mk.inj h
    exact Passes.add (n := 1) (m := 1) (.one (by decide)) (.one (by decide))
  · obtain ⟨-, rfl⟩ := Prod.mk.inj h
    exact .zero _

/-- Only a comma follows a selector. -/
theorem joint_none {blank : Bool} {text : List Char} {m : Nat} (h : joint blank text = (.none, m)) :
    ∀ c, text.head? = some c → c = ',' := by
  unfold joint at h
  split at h
  · exact fun c hc => by cases hc
  · exact fun c hc => (Option.some.inj hc).symm
  all_goals first | cases h | (cases blank <;> cases h)

theorem links_covered {length : Nat} {text : List Char} (size : text.length < length) (h : IsUnquoted text) {pos : Nat}
    {s : Scan (List (Combinator × Compound))} (hs : links pos text = .ok s) :
    IsCovered text s.size ∧ ∀ c, (text.drop s.size).head? = some c → c = ',' := by
  induction length generalizing text pos s with
  | zero => cases size
  | succ length ih =>
      have blank := passes_spaces text
      cases links_form hs with
      | stop found => exact ⟨blank.isCovered, joint_none found⟩
      | @link sign m n parts more found same some _ read tail =>
          have front : Passes text n := by
            rw [same]
            exact (blank.add (passes_joint found)).add (passes_spaces _)
          have covered := front.isCovered.add (compound_covered (h.drop n) read)
          have progress := joint_progress found
          rw [bne_iff_ne] at progress
          have shorter : (text.drop (n + parts.size)).length < length := by
            have inside := List.length_pos_iff.mpr some
            simp only [List.length_drop] at inside ⊢
            omega
          obtain ⟨behind, ends⟩ := ih shorter (h.drop _) tail
          rw [List.drop_drop] at ends
          exact ⟨covered.add behind, ends⟩

theorem complex_covered {text : List Char} (h : IsUnquoted text) {pos : Nat} {s : Scan Complex}
    (hs : complex pos text = .ok s) : IsCovered text s.size ∧ ∀ c, (text.drop s.size).head? = some c → c = ',' := by
  obtain ⟨first, more, read, tail, rfl⟩ := complex_form hs
  obtain ⟨behind, ends⟩ := links_covered (Nat.lt_succ_self _) (h.drop first.size) tail
  rw [List.drop_drop] at ends
  exact ⟨(compound_covered h read).add behind, ends⟩

theorem selectors_covered {length : Nat} {text : List Char} (size : text.length < length) (h : IsUnquoted text)
    {pos : Nat} {list : List Complex} (hs : selectors pos text = .ok list) : IsCovered text text.length := by
  induction length generalizing text pos list with
  | zero => cases size
  | succ length ih =>
      have blank := (passes_spaces text).isCovered
      cases selectors_form hs with
      | @last first found done =>
          have front := blank.add (complex_covered (h.drop _) found).1
          obtain ⟨items, covers⟩ := front
          rw [Nat.le_antisymm (List.drop_eq_nil_iff.mp done) covers.size]
          exact ⟨items, covers⟩
      | @more first c rest list found goesOn read =>
          obtain ⟨covered, ends⟩ := complex_covered (h.drop _) found
          rw [List.drop_drop, goesOn] at ends
          obtain rfl := ends c rfl
          have unquoted := h.drop (spaces text + first.size)
          rw [goesOn] at unquoted
          have behind := congrArg List.length goesOn
          rw [List.length_drop, List.length_cons] at behind
          have comma : Passes (',' :: rest) 1 := .one (by decide)
          have later : IsCovered rest rest.length := ih (by omega) unquoted.tail read
          have back : IsCovered (',' :: rest) (1 + rest.length) := comma.isCovered.add later
          rw [← goesOn] at back
          have whole := (blank.add covered).add back
          have total : spaces text + first.size + (1 + rest.length) = text.length := by omega
          rwa [total] at whole

/-- An accepted text without quotes and backslashes is sound items without damage. -/
theorem accepted_items {text : List Char} (h : IsUnquoted text) {pos : Nat} {list : List Complex}
    (hs : selectors pos text = .ok list) :
    ∃ items, text = textOf items ∧ AreSound none items ∧ damageOf items = [] := by
  obtain ⟨items, covers⟩ := selectors_covered (Nat.lt_succ_self _) h hs
  have taken := covers.taken
  have sound := covers.sound
  rw [List.take_length] at taken
  rw [List.drop_length] at sound
  exact ⟨items, taken, sound, covers.undamaged⟩

end StyleAudit.Selector
