import StyleAudit.Proofs.RuleSweeps
/-!
Sites: the pseudos of a selector, with what is wrong about how each is written. Apart from its sites a selector is plain
characters; only a negation holds sites again, and none of these is a negation.
-/
namespace StyleAudit.Selector

def elementNames : List String := PseudoElement.all.map PseudoElement.name

def classNames : List String := PseudoClass.all.map PseudoClass.name

def functionNames : List String := "lang" :: positionNames

/-- The names behind which a position of zero is mended. -/
def zeroNames : List String := zeroPositionClasses.map PseudoName.name

/-- A character that no rule looks at where it stands outside of a pseudo. -/
def isPlain (c : Char) : Bool :=
  !(c == ':' || c == '(' || c == ')' || c == '"' || c == '\'' || c == '\\' || ('\u200b' ≤ c && c ≤ '\u200d'))

theorem isPlain_iff {c : Char} : isPlain c = true ↔
    c.toNat ≠ 58 ∧ c.toNat ≠ 40 ∧ c.toNat ≠ 41 ∧ c.toNat ≠ 34 ∧ c.toNat ≠ 39 ∧ c.toNat ≠ 92 ∧
      ¬ (0x200b ≤ c.toNat ∧ c.toNat ≤ 0x200d) := by
  rw [← Bool.not_eq_false, isPlain, Bool.not_eq_false, Bool.not_eq_true', Bool.eq_false_iff]
  simp [char_eq_iff, Char.le_def, UInt32.le_iff_toNat_le, or_assoc]

/-- A character of an argument that begins neither a class nor an id. -/
def isBareChar (c : Char) : Bool := isPlain c && c != '.' && c != '#'

/-- A pseudo other than a negation: its name and its argument as they should be, whether it is written with the wrong
colons, and whether a zero is written for its argument. -/
structure Site where
  word : List Char
  argument : Option (List Char)
  miscounted : Bool := false
  zeroed : Bool := false
  deriving DecidableEq, Repr

namespace Site

def isElement (s : Site) : Bool := s.argument.isNone && elementNames.contains (lower s.word)

def colons (s : Site) : Colons := if s.isElement = s.miscounted then .one else .two

def shown (s : Site) : Option (List Char) := if s.zeroed then some ['0'] else s.argument

def text (s : Site) : List Char := spelling s.colons s.word s.shown

/-- The repairs that the site needs. -/
def damage (s : Site) : List RepairKind :=
  (if s.miscounted then [if s.isElement then .pseudoElementConfusion else .pseudoClassConfusion] else []) ++
    if s.zeroed then [.ordinality] else []

def proper (s : Site) : Site := { s with miscounted := false, zeroed := false }

/-- A pseudo of a selector that is accepted, but for the damage. -/
structure IsSound (s : Site) : Prop where
  plain : s.argument = none → lower s.word ∈ elementNames ++ classNames
  function : ∀ a, s.argument = some a → lower s.word ∈ functionNames
  argument : ∀ a, s.argument = some a → ∀ c ∈ a, isBareChar c = true
  zero : ∀ a, s.argument = some a → lower s.word ∈ zeroNames → Text.trim a ≠ ['0']
  zeroed : s.zeroed = true → s.argument = some "0n".toList ∧ lower s.word ∈ zeroNames

/-- A name without an argument ends before the next character. -/
def EndsBefore (s : Site) (next : Option Char) : Prop :=
  s.argument = none → ∀ c, next = some c → (isWordChar c || c == '(') = false

end Site

/-- What a negation may hold. -/
inductive Atom where
  | char (c : Char)
  | site (s : Site)
  deriving DecidableEq, Repr

namespace Atom

def text : Atom → List Char
  | char c => [c]
  | site s => s.text

def damage : Atom → List RepairKind
  | char _ => []
  | site s => s.damage

def map (f : Site → Site) : Atom → Atom
  | char c => char c
  | site s => site (f s)

def isBlank : Atom → Bool
  | char c => Text.isBlank c
  | site _ => false

/-- A sound atom in front of a character. -/
def Stands (next : Option Char) : Atom → Prop
  | char c => isPlain c = true
  | site s => s.IsSound ∧ s.EndsBefore next

end Atom

/-- Pieces in a row, each standing in front of the next. -/
def Row {α : Type} (text : α → List Char) (stands : Option Char → α → Prop) (next : Option Char) : List α → Prop
  | [] => True
  | x :: xs => stands ((xs.flatMap text).head?.or next) x ∧ Row text stands next xs

/-- What a selector is made of. A negation has its name, what it holds, and whether its colons are wrong. -/
inductive Item where
  | atom (a : Atom)
  | negation (word : List Char) (inner : List Atom) (miscounted : Bool)
  deriving DecidableEq, Repr

namespace Item

def negationColons (miscounted : Bool) : Colons := if miscounted then .two else .one

def text : Item → List Char
  | atom a => a.text
  | negation word inner miscounted => spelling (negationColons miscounted) word (some (inner.flatMap Atom.text))

def damage : Item → List RepairKind
  | atom a => a.damage
  | negation _ inner miscounted =>
    (if miscounted then [.pseudoClassConfusion] else []) ++ inner.flatMap Atom.damage

/-- The item without its damage. -/
def proper : Item → Item
  | atom a => atom (a.map Site.proper)
  | negation word inner _ => negation word (inner.map (Atom.map Site.proper)) false

/-- A sound item in front of a character. -/
def Stands (next : Option Char) : Item → Prop
  | atom a => a.Stands next
  | negation word inner _ =>
    lower word = "not" ∧ (∃ a ∈ inner, a.isBlank = false) ∧ Row Atom.text Atom.Stands (some ')') inner

end Item

/-- The text of items. -/
def textOf (items : List Item) : List Char := items.flatMap Item.text

def damageOf (items : List Item) : List RepairKind := items.flatMap Item.damage

/-- Sound items in front of a character. -/
def AreSound (next : Option Char) (items : List Item) : Prop := Row Item.text Item.Stands next items

theorem textOf_cons (i : Item) (items : List Item) : textOf (i :: items) = i.text ++ textOf items := List.flatMap_cons

theorem damageOf_cons (i : Item) (items : List Item) : damageOf (i :: items) = i.damage ++ damageOf items :=
  List.flatMap_cons

section
variable {α : Type} {text : α → List Char} {stands : Option Char → α → Prop}

theorem Row.append {next : Option Char} {xs ys : List α} :
    Row text stands next (xs ++ ys) ↔
      Row text stands ((ys.flatMap text).head?.or next) xs ∧ Row text stands next ys := by
  induction xs with
  | nil => simp [Row]
  | cons x xs ih => simp [Row, ih, List.head?_append, Option.or_assoc, and_assoc]

/-- Changes that keep the first characters keep the first character of a row. -/
theorem Row.head? {f : α → α} {next : Option Char} {xs : List α} (h : Row text stands next xs)
    (hf : ∀ next x, stands next x → text x ≠ [] ∧ (text (f x)).head? = (text x).head?) :
    ((xs.map f).flatMap text).head? = (xs.flatMap text).head? := by
  cases xs with
  | nil => rfl
  | cons x xs =>
      obtain ⟨visible, same⟩ := hf _ x h.1
      rw [List.map_cons, List.flatMap_cons, List.flatMap_cons, List.head?_append, List.head?_append, same,
        List.head?_eq_some_head visible, Option.some_or, Option.some_or]

theorem Row.map {f : α → α} {next : Option Char} {xs : List α} (h : Row text stands next xs)
    (hf : ∀ next x, stands next x → text x ≠ [] ∧ (text (f x)).head? = (text x).head?)
    (hs : ∀ next x, stands next x → stands next (f x)) : Row text stands next (xs.map f) := by
  induction xs with
  | nil => trivial
  | cons x xs ih =>
      refine ⟨?_, ih h.2⟩
      rw [h.2.head? hf]
      exact hs _ x h.1

/-- Only the last pieces see what stands behind a row. -/
theorem Row.before {other next : Option Char} {xs : List α} (h : Row text stands other xs)
    (hs : ∀ (inside : Option Char) (x : α), stands (inside.or other) x → stands (inside.or next) x) :
    Row text stands next xs := by
  induction xs with
  | nil => trivial
  | cons x xs ih => exact ⟨hs _ x h.1, ih h.2⟩

end

section
variable {inside other next : Option Char}

/-- What ends in front of one character ends in front of any other that is no part of a name. -/
theorem Atom.Stands.before {a : Atom} (h : a.Stands (inside.or other))
    (hn : ∀ c, next = some c → (isWordChar c || c == '(') = false) : a.Stands (inside.or next) := by
  cases a with
  | char c => exact h
  | site s =>
      refine ⟨h.1, fun none c hc => ?_⟩
      rcases Option.or_eq_some_iff.mp hc with within | ⟨-, outside⟩
      · exact h.2 none c (by rw [within]; rfl)
      · exact hn c outside

theorem Item.Stands.before {i : Item} (h : i.Stands (inside.or other))
    (hn : ∀ c, next = some c → (isWordChar c || c == '(') = false) : i.Stands (inside.or next) := by
  cases i with
  | atom a => exact Atom.Stands.before h hn
  | negation word inner miscounted => exact h

end

/-! Names. -/

theorem names_written : ∀ n ∈ "not" :: (elementNames ++ classNames ++ functionNames),
    n.toList ≠ [] ∧ ∀ c ∈ n.toList, isWordChar c = true := by
  have checked : (("not" :: (elementNames ++ classNames ++ functionNames)).all fun n =>
      decide (n.toList ≠ []) && n.toList.all isWordChar) = true := by decide +kernel
  intro n hn
  have name := List.all_eq_true.mp checked n hn
  rwa [Bool.and_eq_true, decide_eq_true_eq, List.all_eq_true] at name

theorem word_of_lower {word : List Char} (h : lower word ∈ "not" :: (elementNames ++ classNames ++ functionNames)) :
    word ≠ [] ∧ ∀ c ∈ word, isWordChar c = true := by
  obtain ⟨visible, chars⟩ := names_written _ h
  rw [toList_lower] at visible chars
  refine ⟨fun none => visible (by rw [none]; rfl), fun c hc => isWordChar_of_toLower (chars _ ?_)⟩
  exact List.mem_map_of_mem hc

namespace Site
variable {s : Site}

theorem isSome_shown (h : s.IsSound) : s.shown.isSome = s.argument.isSome := by
  unfold shown
  split
  · next zeroed => rw [(h.zeroed zeroed).1]; rfl
  · rfl

theorem IsSound.known (h : s.IsSound) : lower s.word ∈ "not" :: (elementNames ++ classNames ++ functionNames) := by
  cases has : s.argument with
  | none => exact List.mem_cons_of_mem _ (List.mem_append_left _ (h.plain has))
  | some a => exact List.mem_cons_of_mem _ (List.mem_append_right _ (h.function a has))

/-- The characters of the argument as it is written. -/
theorem IsSound.shown (h : s.IsSound) {a : List Char} (ha : s.shown = some a) : ∀ c ∈ a, isBareChar c = true := by
  unfold Site.shown at ha
  split at ha
  · obtain rfl := Option.some.inj ha
    exact List.all_eq_true.mp (by decide)
  · exact h.argument a ha

theorem isPlain_of_isBareChar {c : Char} (h : isBareChar c = true) : isPlain c = true := by
  simp only [isBareChar, Bool.and_eq_true] at h
  exact h.1.1

theorem isClosed_of_isPlain {text : List Char} (h : ∀ c ∈ text, isPlain c = true) : IsClosed text := by
  refine .plain fun c hc => ?_
  have other := isPlain_iff.mp (h c hc)
  rw [Ne, Ne, char_eq_iff, char_eq_iff]
  exact ⟨other.2.1, other.2.2.1⟩

theorem IsSound.fits (h : s.IsSound) (rest : List Char) (he : s.EndsBefore rest.head?) : Fits s.word s.shown rest := by
  obtain ⟨visible, chars⟩ := word_of_lower h.known
  refine ⟨visible, chars, fun text shown => ?_, fun none => he ?_⟩
  · exact isClosed_of_isPlain fun c hc => isPlain_of_isBareChar (h.shown shown c hc)
  · have some := isSome_shown h
    rwa [none, Option.isSome_none, Eq.comm, Option.isSome_eq_false_iff, Option.isNone_iff_eq_none] at some

theorem head?_text (s : Site) : s.text.head? = some ':' := by
  unfold text spelling
  cases s.colons <;> rfl

end Site

/-! Closed texts. -/

theorem Colons.isPlain_text (colons : Colons) : ∀ c ∈ colons.text, c ≠ '(' ∧ c ≠ ')' := by
  cases colons <;> simp [Colons.text]

theorem Fits.isClosed {word rest : List Char} {argument : Option (List Char)} (h : Fits word argument rest)
    (own : Colons) : IsClosed (spelling own word argument) := by
  have name : IsClosed word := by
    refine .plain fun c hc => ⟨?_, ?_⟩ <;> rintro rfl <;> exact absurd (h.word _ hc) (by decide)
  refine .append (.plain own.isPlain_text) (.append name ?_)
  cases argument with
  | none => exact .plain (by simp [argumentText])
  | some text => exact .parentheses (h.closed text rfl)

namespace Atom

theorem text_visible (a : Atom) : a.text ≠ [] := by
  cases a with
  | char c => exact List.cons_ne_nil _ _
  | site s => exact List.ne_nil_of_mem (List.mem_of_mem_head? s.head?_text)

theorem head?_map (f : Site → Site) (a : Atom) : (a.map f).text.head? = a.text.head? := by
  cases a with
  | char c => rfl
  | site s => exact (f s).head?_text.trans s.head?_text.symm

theorem Stands.isClosed {a : Atom} {next : Option Char} (h : a.Stands next) : IsClosed a.text := by
  cases a with
  | char c =>
      have plain : isPlain c = true := h
      exact Site.isClosed_of_isPlain (by simpa [text] using plain)
  | site s =>
      have alone : s.EndsBefore next := h.2
      cases next with
      | none => exact (h.1.fits [] alone).isClosed s.colons
      | some c => exact (h.1.fits [c] alone).isClosed s.colons

end Atom

theorem isClosed_atoms {atoms : List Atom} {next : Option Char} (h : Row Atom.text Atom.Stands next atoms) :
    IsClosed (atoms.flatMap Atom.text) := by
  induction atoms with
  | nil => exact .plain (by simp)
  | cons a atoms ih => exact h.1.isClosed.append (ih h.2)

theorem isBlank_colon : Text.isBlank ':' = false := by decide

/-- A negation holds more than blanks. -/
theorem visible_atoms {atoms : List Atom} (h : ∃ a ∈ atoms, a.isBlank = false) :
    ∃ c ∈ atoms.flatMap Atom.text, Text.isBlank c = false := by
  obtain ⟨a, mem, visible⟩ := h
  cases a with
  | char c => exact ⟨c, List.mem_flatMap.mpr ⟨_, mem, List.mem_singleton_self c⟩, visible⟩
  | site s => exact ⟨':', List.mem_flatMap.mpr ⟨_, mem, List.mem_of_mem_head? s.head?_text⟩, isBlank_colon⟩

namespace Item

theorem negation_fits {word : List Char} {inner : List Atom} {miscounted : Bool} {next : Option Char}
    (h : (negation word inner miscounted).Stands next) (rest : List Char) :
    Fits word (some (inner.flatMap Atom.text)) rest := by
  obtain ⟨name, -, row⟩ := h
  obtain ⟨visible, chars⟩ := word_of_lower (by rw [name]; exact List.mem_cons_self)
  refine ⟨visible, chars, fun text same => ?_, fun none => by cases none⟩
  obtain rfl := Option.some.inj same
  exact isClosed_atoms row

theorem head?_text_negation (word : List Char) (inner : List Atom) (miscounted : Bool) :
    (negation word inner miscounted).text.head? = some ':' := by
  cases miscounted <;> rfl

theorem text_visible (i : Item) : i.text ≠ [] := by
  cases i with
  | atom a => exact a.text_visible
  | negation word inner miscounted =>
      exact List.ne_nil_of_mem (List.mem_of_mem_head? (head?_text_negation word inner miscounted))

theorem head?_proper (i : Item) : i.proper.text.head? = i.text.head? := by
  cases i with
  | atom a => exact a.head?_map Site.proper
  | negation word inner miscounted =>
      rw [proper, head?_text_negation, head?_text_negation]

end Item

/-! Changes of sites that keep them sound. -/

/-- A change that takes damage off, if it does anything. -/
structure Site.Keeps (f : Site → Site) : Prop where
  word : ∀ s, (f s).word = s.word
  argument : ∀ s, (f s).argument = s.argument
  zeroed : ∀ s, (f s).zeroed = true → s.zeroed = true

section
variable {f : Site → Site} (hf : Site.Keeps f)
include hf

theorem Site.IsSound.map {s : Site} (h : s.IsSound) : (f s).IsSound := by
  refine ⟨?_, ?_, ?_, ?_, fun zeroed => ?_⟩
  · rw [hf.word, hf.argument]; exact h.plain
  · rw [hf.word, hf.argument]; exact h.function
  · rw [hf.argument]; exact h.argument
  · rw [hf.word, hf.argument]; exact h.zero
  · rw [hf.word, hf.argument]; exact h.zeroed (hf.zeroed s zeroed)

theorem Atom.Stands.map {a : Atom} {next : Option Char} (h : a.Stands next) : (a.map f).Stands next := by
  cases a with
  | char c => exact h
  | site s => exact ⟨h.1.map hf, fun none => h.2 (by rwa [hf.argument] at none)⟩

theorem row_map {atoms : List Atom} {next : Option Char} (h : Row Atom.text Atom.Stands next atoms) :
    Row Atom.text Atom.Stands next (atoms.map (Atom.map f)) :=
  h.map (fun _ a _ => ⟨a.text_visible, a.head?_map f⟩) fun _ _ ha => ha.map hf

/-- A negation stays sound whatever happens to its colons. -/
theorem Item.negation_map {word : List Char} {inner : List Atom} {miscounted : Bool} {next : Option Char}
    (h : (negation word inner miscounted).Stands next) (other : Bool) :
    (negation word (inner.map (Atom.map f)) other).Stands next := by
  obtain ⟨name, ⟨a, mem, visible⟩, row⟩ := h
  refine ⟨name, ⟨a.map f, List.mem_map_of_mem mem, ?_⟩, row_map hf row⟩
  cases a with
  | char c => exact visible
  | site s => rfl

end
end StyleAudit.Selector
