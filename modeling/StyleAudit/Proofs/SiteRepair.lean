import StyleAudit.Proofs.PseudoSites
/-!
What the rules make of sites. Each of the first three mends one kind of damage wherever it finds it; the others find
nothing in sound items. A negation that loses a colon is taken with all it holds, so that its sites wait for the next
round.
-/
namespace StyleAudit.Selector

/-- What a rule does to sites: which it mends and how, whether it takes colons off negations, and its kind. -/
structure Mending where
  hits : Site → Bool
  mend : Site → Site
  negations : Bool
  kind : RepairKind

namespace Mending

def atom (m : Mending) : Atom → Atom := Atom.map m.mend

def atomHits (m : Mending) : Atom → Nat
  | .char _ => 0
  | .site s => (m.hits s).toNat

def item (m : Mending) : Item → Item
  | .atom a => .atom (m.atom a)
  | .negation word inner miscounted =>
    if m.negations && miscounted then .negation word inner false else .negation word (inner.map m.atom) miscounted

def itemHits (m : Mending) : Item → Nat
  | .atom a => m.atomHits a
  | .negation _ inner miscounted => if m.negations && miscounted then 1 else (inner.map m.atomHits).sum

def hitsIn (m : Mending) (items : List Item) : Nat := (items.map m.itemHits).sum

/-- A rule for pseudo names that does to sound items what is said of it. -/
structure Describes (m : Mending) (colons : Colons) (names : List PseudoName)
    (replace : List Char → Option (List Char)) : Prop where
  table : IsTable names
  keeps : Site.Keeps m.mend
  misses : ∀ s, m.hits s = false → m.mend s = s
  site : ∀ s, s.IsSound →
    actsOn colons names replace s.colons s.word s.shown = if m.hits s then some (m.mend s).text else none
  negation : ∀ word inner miscounted next, (Item.negation word inner miscounted).Stands next →
    actsOn colons names replace (Item.negationColons miscounted) word (some (inner.flatMap Atom.text)) =
      if m.negations && miscounted then some (Item.negation word inner false).text else none

section
variable {m : Mending} {colons : Colons} {names : List PseudoName} {replace : List Char → Option (List Char)}
variable {rest out : List Char} {n : Nat}

theorem no_colon_argument {s : Site} (h : s.IsSound) : ∀ c ∈ argumentText s.shown, c ≠ ':' := by
  intro c hc
  cases shown : s.shown with
  | none => rw [shown] at hc; cases hc
  | some a =>
      rw [shown, argumentText, List.mem_cons, List.mem_append, List.mem_singleton] at hc
      rcases hc with rfl | hc | rfl
      · decide
      · have plain := isPlain_iff.mp (Site.isPlain_of_isBareChar (h.shown shown c hc))
        rw [Ne, char_eq_iff]
        exact plain.1
      · decide

theorem Describes.sweep_atom (hm : m.Describes colons names replace) {a : Atom} (ha : a.Stands rest.head?)
    (hs : SweepsOn (pseudoRule colons names replace) rest out n) :
    SweepsOn (pseudoRule colons names replace) (a.text ++ rest) ((m.atom a).text ++ out) (m.atomHits a + n) := by
  cases a with
  | char c =>
      have plain := isPlain_iff.mp ha
      have other : ∀ d ∈ [c], d ≠ ':' := by
        intro d hd
        rw [List.mem_singleton.mp hd, Ne, char_eq_iff]
        exact plain.1
      rw [atomHits, Nat.zero_add]
      exact hs.plain other
  | site s =>
      have fits := ha.1.fits rest ha.2
      have acts := hm.site s ha.1
      cases hit : m.hits s with
      | true =>
          rw [hit, if_pos rfl] at acts
          have edit := SweepsOn.edit hm.table fits acts hs
          rw [atomHits, hit, Bool.toNat_true, Nat.add_comm]
          exact edit
      | false =>
          rw [hit, if_neg Bool.false_ne_true] at acts
          have keep := SweepsOn.keep hm.table fits acts (hs.plain (no_colon_argument ha.1))
          rw [atomHits, hit, Bool.toNat_false, Nat.zero_add, atom, Atom.map, hm.misses s hit]
          simpa only [Atom.text, Site.text, spelling, List.append_assoc] using keep

theorem Describes.sweep_atoms (hm : m.Describes colons names replace) {atoms : List Atom}
    (ha : Row Atom.text Atom.Stands rest.head? atoms) (hs : SweepsOn (pseudoRule colons names replace) rest out n) :
    SweepsOn (pseudoRule colons names replace) (atoms.flatMap Atom.text ++ rest)
      ((atoms.map m.atom).flatMap Atom.text ++ out) ((atoms.map m.atomHits).sum + n) := by
  induction atoms with
  | nil => simpa using hs
  | cons a atoms ih =>
      have first := ha.1
      rw [← List.head?_append] at first
      rw [List.flatMap_cons, List.append_assoc, List.map_cons, List.flatMap_cons, List.append_assoc, List.map_cons,
        List.sum_cons, Nat.add_assoc]
      exact hm.sweep_atom first (ih ha.2)

theorem Describes.sweep_item (hm : m.Describes colons names replace) {i : Item} (hi : i.Stands rest.head?)
    (hs : SweepsOn (pseudoRule colons names replace) rest out n) :
    SweepsOn (pseudoRule colons names replace) (i.text ++ rest) ((m.item i).text ++ out) (m.itemHits i + n) := by
  cases i with
  | atom a => exact hm.sweep_atom hi hs
  | negation word inner miscounted =>
      have fits := Item.negation_fits hi rest
      have acts := hm.negation word inner miscounted _ hi
      cases taken : m.negations && miscounted with
      | true =>
          rw [taken, if_pos rfl] at acts
          have edit := SweepsOn.edit hm.table fits acts hs
          rw [itemHits, item, taken, if_pos rfl, if_pos rfl, Nat.add_comm]
          exact edit
      | false =>
          rw [taken, if_neg Bool.false_ne_true] at acts
          have closing := hs.plain (no_colon_mark (c := ')') (by decide))
          have argument := (hm.sweep_atoms (by exact hi.2.2) closing).plain (no_colon_mark (c := '(') (by decide))
          have keep := SweepsOn.keep hm.table fits acts (by simpa [argumentText] using argument)
          rw [itemHits, item, taken, if_neg Bool.false_ne_true, if_neg Bool.false_ne_true]
          simpa [Item.text, spelling, argumentText] using keep

theorem Describes.sweep (hm : m.Describes colons names replace) {items : List Item} (hi : AreSound none items) :
    SweepsOn (pseudoRule colons names replace) (textOf items) (textOf (items.map m.item)) (m.hitsIn items) := by
  induction items with
  | nil => exact .nil
  | cons i items ih =>
      have first : i.Stands ((textOf items).head?.or none) := hi.1
      rw [Option.or_none] at first
      have hits : m.hitsIn (i :: items) = m.itemHits i + m.hitsIn items := List.sum_cons
      rw [textOf_cons, List.map_cons, textOf_cons, hits]
      exact hm.sweep_item first (ih hi.2)

end
end Mending

/-! The rules one by one. -/

/-- Which names of sites a table has: whether those of elements, whether those of classes, and which of those with an
argument. -/
def Holds (names : List PseudoName) (elements classes : Bool) (functions : List String) : Prop :=
  (∀ n ∈ elementNames, decide (⟨n, false⟩ ∈ names) = elements) ∧
    (∀ n ∈ classNames, decide (⟨n, false⟩ ∈ names) = classes) ∧
    ∀ n ∈ functionNames, decide (⟨n, true⟩ ∈ names) = functions.contains n

theorem Holds.site {names : List PseudoName} {elements classes : Bool} {functions : List String}
    (h : Holds names elements classes functions) {s : Site} (hs : s.IsSound) :
    decide (⟨lower s.word, s.shown.isSome⟩ ∈ names) =
      if s.isElement then elements else if s.shown.isSome then functions.contains (lower s.word) else classes := by
  rw [Site.isSome_shown hs]
  cases has : s.argument with
  | some a => simp [Site.isElement, has, h.2.2 _ (hs.function a has)]
  | none =>
      by_cases element : lower s.word ∈ elementNames
      · simp [Site.isElement, has, element, h.1 _ element]
      · have class_ := (List.mem_append.mp (hs.plain has)).resolve_left element
        simp [Site.isElement, has, element, h.2.1 _ class_]

theorem Site.colons_eq_one {s : Site} : s.colons = .one ↔ s.isElement = s.miscounted := by
  unfold colons
  split <;> simp_all

def mendElements : Mending where
  hits s := s.isElement && s.miscounted
  mend s := if s.isElement then { s with miscounted := false } else s
  negations := false
  kind := .pseudoElementConfusion

def mendClasses : Mending where
  hits s := !s.isElement && s.miscounted
  mend s := if s.isElement then s else { s with miscounted := false }
  negations := true
  kind := .pseudoClassConfusion

/-- A zero is found only behind a single colon. -/
def mendZeros : Mending where
  hits s := s.zeroed && !s.miscounted
  mend s := if s.miscounted then s else { s with zeroed := false }
  negations := false
  kind := .ordinality

/-- What a rule does that mends nothing. -/
def mendNothing : Mending where
  hits _ := false
  mend := id
  negations := false
  kind := .badCharacters

theorem Site.colons_recounted (s : Site) :
    ({ s with miscounted := false } : Site).colons = if s.isElement then .two else .one := by
  have same : ({ s with miscounted := false } : Site).isElement = s.isElement := rfl
  rw [Site.colons, same]
  cases s.isElement <;> rfl

/-- A table without negations leaves them alone. -/
theorem actsOn_negation {colons own : Colons} {names : List PseudoName} {replace : List Char → Option (List Char)}
    {word : List Char} {argument : List Char} (hw : lower word = "not") (hn : ⟨"not", true⟩ ∉ names) :
    actsOn colons names replace own word (some argument) = none := by
  rw [actsOn, Option.isSome_some, hw, if_neg fun both => hn both.2]

theorem mendElements_describes :
    mendElements.Describes .one singleColonElements fun matched => some (':' :: matched) where
  table := isTable_of_all (by decide +kernel)
  keeps := by
    refine ⟨fun s => ?_, fun s => ?_, fun s => ?_⟩ <;> unfold mendElements <;> dsimp only <;> split <;> simp
  misses s hit := by
    obtain ⟨word, argument, miscounted, zeroed⟩ := s
    cases miscounted <;> simp_all [mendElements]
  site s hs := by
    have holds : Holds singleColonElements true false [] := by unfold Holds; decide +kernel
    have mem := holds.site hs
    simp only [List.contains_nil, ite_self, Bool.if_true_left, Bool.or_false, decide_eq_decide] at mem
    by_cases hit : mendElements.hits s = true
    · obtain ⟨element, miscounted⟩ := (Bool.and_eq_true _ _).mp hit
      have own : s.colons = .one := Site.colons_eq_one.mpr (element.trans miscounted.symm)
      have other := s.colons_recounted
      rw [if_pos element] at other
      rw [if_pos hit, actsOn, if_pos ⟨own, mem.mpr element⟩, own]
      simp only [mendElements, element, if_true, Site.text, other]
      rfl
    · rw [if_neg hit, actsOn, if_neg]
      rintro ⟨own, found⟩
      have element := mem.mp found
      exact hit ((Bool.and_eq_true _ _).mpr ⟨element, (Site.colons_eq_one.mp own).symm.trans element⟩)
  negation word inner miscounted next h := actsOn_negation h.1 (by decide +kernel)

theorem mendClasses_describes :
    mendClasses.Describes .two doubleColonClasses fun matched => some (matched.drop 1) where
  table := isTable_of_all (by decide +kernel)
  keeps := by
    refine ⟨fun s => ?_, fun s => ?_, fun s => ?_⟩ <;> unfold mendClasses <;> dsimp only <;> split <;> simp
  misses s hit := by
    obtain ⟨word, argument, miscounted, zeroed⟩ := s
    cases miscounted <;> simp_all [mendClasses]
  site s hs := by
    have holds : Holds doubleColonClasses false true functionNames := by unfold Holds; decide +kernel
    have mem : ⟨lower s.word, s.shown.isSome⟩ ∈ doubleColonClasses ↔ s.isElement = false := by
      have known : s.shown.isSome = true → functionNames.contains (lower s.word) = true := by
        intro some
        rw [Site.isSome_shown hs] at some
        obtain ⟨a, has⟩ := Option.isSome_iff_exists.mp some
        exact List.contains_iff_mem.mpr (hs.function a has)
      rw [← decide_eq_true_iff (p := _ ∈ doubleColonClasses), holds.site hs]
      cases s.isElement with
      | true => simp
      | false =>
          cases some : s.shown.isSome with
          | true => simpa using known some
          | false => simp
    by_cases hit : mendClasses.hits s = true
    · obtain ⟨class_, miscounted⟩ := (Bool.and_eq_true _ _).mp hit
      rw [Bool.not_eq_true'] at class_
      have own : s.colons = .two := by simp [Site.colons, class_, miscounted]
      have other := s.colons_recounted
      rw [class_, if_neg Bool.false_ne_true] at other
      rw [if_pos hit, actsOn, if_pos ⟨own, mem.mpr class_⟩, own]
      simp only [mendClasses, class_, Bool.false_eq_true, if_false, Site.text, other]
      rfl
    · rw [if_neg hit, actsOn, if_neg]
      rintro ⟨own, found⟩
      have class_ := mem.mp found
      refine hit ((Bool.and_eq_true _ _).mpr ⟨by rw [class_]; rfl, ?_⟩)
      cases miscounted : s.miscounted with
      | true => rfl
      | false =>
          rw [Site.colons_eq_one.mpr (class_.trans miscounted.symm)] at own
          cases own
  negation word inner miscounted next h := by
    have found : ⟨lower word, true⟩ ∈ doubleColonClasses := by rw [h.1]; decide +kernel
    cases miscounted with
    | true =>
        rw [actsOn, if_pos ⟨rfl, found⟩]
        rfl
    | false =>
        rw [actsOn, if_neg]
        · rfl
        · rintro ⟨own, -⟩
          cases own

/-- A pseudo taken apart again. -/
theorem splitArgument_spelling {word rest a : List Char} (h : Fits word (some a) rest) (own : Colons) :
    splitArgument (spelling own word (some a)) = (own.text ++ word, a) := by
  have before : ∀ c ∈ own.text ++ word, decide (c ≠ '(') = true := by
    intro c hc
    rw [decide_eq_true_eq]
    rcases List.mem_append.mp hc with hc | hc
    · exact (own.isPlain_text c hc).1
    · rintro rfl
      exact absurd (h.word _ hc) (by decide)
  have text : spelling own word (some a) = (own.text ++ word) ++ '(' :: (a ++ [')']) := by
    rw [spelling, argumentText, List.append_assoc]
  rw [splitArgument, text, List.takeWhile_append_of_pos before, List.dropWhile_append_of_pos before]
  simp

theorem mendZeros_describes :
    mendZeros.Describes .one zeroPositionClasses fun matched =>
      let (name, argument) := splitArgument matched
      if Text.trim argument = ['0'] then some (name ++ "(0n)".toList) else none where
  table := isTable_of_all (by decide +kernel)
  keeps := by
    refine ⟨fun s => ?_, fun s => ?_, fun s => ?_⟩ <;> unfold mendZeros <;> dsimp only <;> split <;> simp
  misses s hit := by
    obtain ⟨word, argument, miscounted, zeroed⟩ := s
    cases zeroed <;> cases miscounted <;> simp_all [mendZeros]
  site s hs := by
    have holds : Holds zeroPositionClasses false false zeroNames := by unfold Holds; decide +kernel
    have mem := holds.site hs
    by_cases hit : mendZeros.hits s = true
    · obtain ⟨zeroed, counted⟩ := (Bool.and_eq_true _ _).mp hit
      rw [Bool.not_eq_true'] at counted
      obtain ⟨has, name⟩ := hs.zeroed zeroed
      have class_ : s.isElement = false := by simp [Site.isElement, has]
      have own : s.colons = .one := Site.colons_eq_one.mpr (class_.trans counted.symm)
      have shown : s.shown = some ['0'] := by rw [Site.shown, zeroed, if_pos rfl]
      have fits := hs.fits [] fun none => by rw [has] at none; cases none
      rw [shown] at fits
      -- a zero is written only for an argument of `0n`, which is what the rule puts there
      simp only [class_, Bool.false_eq_true, if_false, shown, Option.isSome_some, if_true, List.contains_iff_mem.mpr name,
        decide_eq_true_eq] at mem
      have mended : (mendZeros.mend s).text = spelling .one s.word (some "0n".toList) := by
        rw [← own, ← has]
        simp [mendZeros, counted, Site.text, Site.colons, Site.shown, Site.isElement]
      rw [if_pos hit, mended, actsOn, shown, own, Option.isSome_some, if_pos ⟨rfl, mem⟩]
      dsimp only
      rw [splitArgument_spelling fits]
      rfl
    · rw [if_neg hit, actsOn]
      split
      · next both =>
          have found := both.2
          rw [← decide_eq_true_iff (p := _ ∈ zeroPositionClasses), mem] at found
          obtain ⟨class_, some, name⟩ : s.isElement = false ∧ s.shown.isSome = true ∧ lower s.word ∈ zeroNames := by
            cases element : s.isElement <;> cases some : s.shown.isSome <;> simp_all
          have counted : s.miscounted = false := by rw [← Site.colons_eq_one.mp both.1, class_]
          have zeroed : s.zeroed = false := by
            cases zeroed : s.zeroed with
            | false => rfl
            | true => exact absurd (by simp [mendZeros, zeroed, counted]) hit
          obtain ⟨a, shown⟩ := Option.isSome_iff_exists.mp some
          have has : s.argument = .some a := by rw [← shown, Site.shown, zeroed, if_neg Bool.false_ne_true]
          have fits := hs.fits [] fun none => by rw [has] at none; cases none
          rw [shown] at fits ⊢
          dsimp only
          rw [splitArgument_spelling fits, if_neg (hs.zero a has name)]
      · rfl
  negation word inner miscounted next h := actsOn_negation h.1 (by decide +kernel)

end StyleAudit.Selector
