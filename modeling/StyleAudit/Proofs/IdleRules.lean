import StyleAudit.Proofs.SiteRepair
import StyleAudit.Proofs.Trimming
/-!
Rules that find nothing in sound items: after the first three, all of them. Two of these look for more than a table of
names; what they look for would have to stand behind a colon.
-/
namespace StyleAudit.Selector

/-! Tables without names of sites. -/

theorem mendNothing_describes {colons : Colons} {names : List PseudoName} {replace : List Char → Option (List Char)}
    (table : IsTable names) (holds : Holds names false false [])
    (negation : ∀ word inner miscounted next, (Item.negation word inner miscounted).Stands next →
      actsOn colons names replace (Item.negationColons miscounted) word (some (inner.flatMap Atom.text)) = none) :
    mendNothing.Describes colons names replace where
  table := table
  keeps := ⟨fun _ => rfl, fun _ => rfl, fun _ h => h⟩
  misses _ _ := rfl
  site s hs := by
    have mem := holds.site hs
    simp only [List.contains_nil, ite_self, decide_eq_false_iff_not] at mem
    rw [actsOn, if_neg fun both => mem both.2]
    rfl
  negation := negation

namespace Mending

theorem mendNothing_atomHits (a : Atom) : mendNothing.atomHits a = 0 := by cases a <;> rfl

theorem mendNothing_itemHits (i : Item) : mendNothing.itemHits i = 0 := by
  cases i with
  | atom a => exact mendNothing_atomHits a
  | negation word inner miscounted =>
      rw [itemHits, show mendNothing.atomHits = fun _ => 0 from funext mendNothing_atomHits]
      simp [mendNothing]

end Mending

theorem edits_nil_of_describes {colons : Colons} {names : List PseudoName} {replace : List Char → Option (List Char)}
    (hm : mendNothing.Describes colons names replace) {items : List Item} (hi : AreSound none items) :
    (pseudoRule colons names replace).edits (textOf items) = [] := by
  have sweep := (hm.sweep hi none (by simp)).edits 0
  have hits : mendNothing.hitsIn items = 0 := by
    rw [Mending.hitsIn, show mendNothing.itemHits = fun _ => 0 from funext Mending.mendNothing_itemHits]
    simp
  rw [hits] at sweep
  exact List.length_eq_zero_iff.mp sweep.2

theorem removal_describes {colons : Colons} {names : List PseudoName} (table : IsTable names)
    (holds : Holds names false false []) (no : ⟨"not", true⟩ ∉ names) :
    mendNothing.Describes colons names fun _ => some [] :=
  mendNothing_describes table holds fun _ _ _ _ h => actsOn_negation h.1 no

theorem removal_edits {colons : Colons} {names : List PseudoName} (table : IsTable names)
    (holds : Holds names false false []) (no : ⟨"not", true⟩ ∉ names) {items : List Item} (hi : AreSound none items) :
    (removal colons names).edits (textOf items) = [] :=
  edits_nil_of_describes (removal_describes table holds no) hi

theorem emptyNegation_describes :
    mendNothing.Describes .one [PseudoName.function "not"] fun matched =>
      if Text.trim (splitArgument matched).2 = [] then some [] else none := by
  refine mendNothing_describes ?_ ?_ fun word inner miscounted next h => ?_
  · exact isTable_of_all (by decide +kernel)
  · unfold Holds; decide +kernel
  · have visible := Text.trim_ne_nil (visible_atoms h.2.1)
    rw [actsOn]
    split
    · rw [splitArgument_spelling (Item.negation_fits h []), if_neg visible]
    · rfl

theorem emptyNegation_edits {items : List Item} (hi : AreSound none items) :
    emptyNegation.edits (textOf items) = [] :=
  edits_nil_of_describes emptyNegation_describes hi

/-! Local rules that look at characters. -/

theorem editsFrom_nil {rule : LocalRule} {text : List Char} (h : ∀ previous rest, rest <:+ text → rule previous rest = none)
    (position : Nat) (previous : Option Char) : rule.editsFrom 0 position previous text = [] := by
  induction text generalizing position previous with
  | nil => rfl
  | cons c text ih =>
      rw [LocalRule.editsFrom, h previous (c :: text) (List.suffix_refl _)]
      exact ih (fun previous rest suffix => h previous rest (suffix.trans (List.suffix_cons c text))) _ _

theorem places_nil {p : List Char → Bool} {text : List Char} (h : ∀ rest, rest <:+ text → p rest = false) (position : Nat) :
    places p position text = [] := by
  induction text generalizing position with
  | nil => rfl
  | cons c text ih =>
      rw [places, h (c :: text) (List.suffix_refl _), if_neg Bool.false_ne_true]
      exact ih (fun rest suffix => h rest (suffix.trans (List.suffix_cons c text))) _

/-- A character that stands in sound items: no quote, no backslash and not of zero width. -/
def IsVisible (c : Char) : Prop := isPlain c = true ∨ c = ':' ∨ c = '(' ∨ c = ')'

theorem IsVisible.toNat {c : Char} (h : IsVisible c) :
    c.toNat ≠ 34 ∧ c.toNat ≠ 39 ∧ c.toNat ≠ 92 ∧ ¬ (0x200b ≤ c.toNat ∧ c.toNat ≤ 0x200d) := by
  rcases h with plain | rfl | rfl | rfl
  · exact (isPlain_iff.mp plain).2.2.2
  · decide
  · decide
  · decide

theorem isPlain_of_isWordChar {c : Char} (h : isWordChar c = true) : isPlain c = true := by
  rw [isWordChar_iff] at h
  rw [isPlain_iff]
  omega

theorem forall_spelling {p : Char → Prop} {own : Colons} {word : List Char} {argument : Option (List Char)}
    (marks : p ':' ∧ p '(' ∧ p ')') (hw : ∀ c ∈ word, p c) (ha : ∀ a, argument = some a → ∀ c ∈ a, p c) :
    ∀ c ∈ spelling own word argument, p c := by
  have colon : ∀ c ∈ own.text, c = ':' := by cases own <;> simp [Colons.text]
  intro c hc
  rw [spelling, List.mem_append, List.mem_append] at hc
  rcases hc with hc | hc | hc
  · rw [colon c hc]
    exact marks.1
  · exact hw c hc
  · cases argument with
    | none => cases hc
    | some a =>
        rw [argumentText, List.mem_cons, List.mem_append, List.mem_singleton] at hc
        rcases hc with rfl | hc | rfl
        · exact marks.2.1
        · exact ha a rfl c hc
        · exact marks.2.2

theorem isVisible_marks : IsVisible ':' ∧ IsVisible '(' ∧ IsVisible ')' :=
  ⟨.inr (.inl rfl), .inr (.inr (.inl rfl)), .inr (.inr (.inr rfl))⟩

theorem isVisible_spelling {own : Colons} {word : List Char} {argument : Option (List Char)}
    (hw : ∀ c ∈ word, isWordChar c = true) (ha : ∀ a, argument = some a → ∀ c ∈ a, IsVisible c) :
    ∀ c ∈ spelling own word argument, IsVisible c :=
  forall_spelling isVisible_marks (fun c hc => .inl (isPlain_of_isWordChar (hw c hc))) ha

theorem isVisible_atom {a : Atom} {next : Option Char} (h : a.Stands next) : ∀ c ∈ a.text, IsVisible c := by
  cases a with
  | char d =>
      intro c hc
      rw [List.mem_singleton.mp hc]
      exact .inl h
  | site s =>
      exact isVisible_spelling (word_of_lower h.1.known).2
        fun a ha c hc => .inl (Site.isPlain_of_isBareChar (h.1.shown ha c hc))

theorem isVisible_atoms {atoms : List Atom} {next : Option Char} (h : Row Atom.text Atom.Stands next atoms) :
    ∀ c ∈ atoms.flatMap Atom.text, IsVisible c := by
  induction atoms with
  | nil => simp
  | cons a atoms ih =>
      intro c hc
      rw [List.flatMap_cons, List.mem_append] at hc
      exact hc.elim (isVisible_atom h.1 c) (ih h.2 c)

theorem isVisible_items {items : List Item} (h : AreSound none items) : ∀ c ∈ textOf items, IsVisible c := by
  induction items with
  | nil => simp [textOf]
  | cons i items ih =>
      intro c hc
      rw [textOf, List.flatMap_cons, List.mem_append] at hc
      refine hc.elim (fun hc => ?_) (ih h.2 c)
      cases i with
      | atom a => exact isVisible_atom h.1 c hc
      | negation word inner miscounted =>
          refine isVisible_spelling (Item.negation_fits h.1 []).word (fun a ha => ?_) c hc
          obtain rfl := Option.some.inj ha
          exact isVisible_atoms h.1.2.2

theorem zeroWidth_idle {text : List Char} (h : ∀ c ∈ text, ¬ ('\u200b' ≤ c ∧ c ≤ '\u200d')) :
    zeroWidth.edits text = [] := by
  refine editsFrom_nil (fun previous rest suffix => ?_) 0 none
  cases rest with
  | nil => rfl
  | cons c rest => rw [zeroWidth, if_neg (h c (suffix.subset List.mem_cons_self))]

theorem quotedNegation_idle {text : List Char} (h : ∀ c ∈ text, c ≠ '"' ∧ c ≠ '\'') : quotedNegation text = [] := by
  have none : places startsQuotedNegation 0 text = [] := by
    refine places_nil (fun rest suffix => ?_) 0
    rw [startsQuotedNegation, Bool.and_eq_false_iff]
    refine .inr ?_
    split
    · next c more behind =>
        have other := h c (suffix.subset (List.mem_of_mem_drop (behind ▸ List.mem_cons_self)))
        simp [other.1, other.2]
    · rfl
  rw [quotedNegation, none]
  rfl

theorem IsVisible.unmarked {c : Char} (h : IsVisible c) :
    ¬ ('\u200b' ≤ c ∧ c ≤ '\u200d') ∧ c ≠ '"' ∧ c ≠ '\'' := by
  have visible := h.toNat
  rw [Char.le_def, Char.le_def, UInt32.le_iff_toNat_le, UInt32.le_iff_toNat_le, Ne, Ne, char_eq_iff, char_eq_iff]
  exact ⟨visible.2.2.2, visible.1, visible.2.1⟩

theorem zeroWidth_edits {items : List Item} (hi : AreSound none items) : zeroWidth.edits (textOf items) = [] :=
  zeroWidth_idle fun c hc => (isVisible_items hi c hc).unmarked.1

theorem quotedNegation_edits {items : List Item} (hi : AreSound none items) : quotedNegation (textOf items) = [] :=
  quotedNegation_idle fun c hc => (isVisible_items hi c hc).unmarked.2

/-! What stands behind a colon. -/

/-- A known name behind a colon, with its argument if it has one. -/
structure IsNamed (text : List Char) (word : List Char) (argument : Option (List Char)) (rest : List Char) : Prop where
  text : text = word ++ (argumentText argument ++ rest)
  fits : Fits word argument rest
  known : lower word ∈ "not" :: (elementNames ++ classNames ++ functionNames)
  argument : ∀ a, argument = some a → lower word = "not" ∨ ∀ c ∈ a, isBareChar c = true

/-- Behind each colon of a text stands another or a name. -/
def ColonsNamed (text : List Char) : Prop :=
  ∀ rest, (':' :: rest) <:+ text → rest.head? = some ':' ∨ ∃ word argument behind, IsNamed rest word argument behind

theorem ColonsNamed.nil : ColonsNamed [] := by
  intro rest suffix
  cases List.suffix_nil.mp suffix

/-- The colons behind a text without colons. -/
theorem colon_suffix {front text rest : List Char} (h : ∀ c ∈ front, c ≠ ':') (hs : (':' :: rest) <:+ front ++ text) :
    (':' :: rest) <:+ text := by
  induction front with
  | nil => exact hs
  | cons c front ih =>
      rcases List.suffix_cons_iff.mp hs with same | suffix
      · exact absurd (List.cons.inj same).1.symm (h c List.mem_cons_self)
      · exact ih (fun d hd => h d (List.mem_cons_of_mem c hd)) suffix

theorem ColonsNamed.plain {front rest : List Char} (h : ∀ c ∈ front, c ≠ ':') (hr : ColonsNamed rest) :
    ColonsNamed (front ++ rest) := fun behind suffix => hr behind (colon_suffix h suffix)

theorem ColonsNamed.colon {rest : List Char}
    (h : rest.head? = some ':' ∨ ∃ word argument behind, IsNamed rest word argument behind) (hr : ColonsNamed rest) :
    ColonsNamed (':' :: rest) := by
  intro behind suffix
  rcases List.suffix_cons_iff.mp suffix with same | suffix
  · rwa [(List.cons.inj same).2]
  · exact hr behind suffix

theorem ColonsNamed.spelling {own : Colons} {word rest : List Char} {argument : Option (List Char)}
    (h : IsNamed (word ++ (argumentText argument ++ rest)) word argument rest)
    (hr : ColonsNamed (argumentText argument ++ rest)) : ColonsNamed (spelling own word argument ++ rest) := by
  have name := ColonsNamed.colon (.inr ⟨word, argument, rest, h⟩) (hr.plain h.fits.no_colon)
  cases own with
  | one => simpa [Selector.spelling, Colons.text] using name
  | two => simpa [Selector.spelling, Colons.text] using ColonsNamed.colon (.inl rfl) name

theorem ColonsNamed.atom {a : Atom} {rest : List Char} (ha : a.Stands rest.head?) (hr : ColonsNamed rest) :
    ColonsNamed (a.text ++ rest) := by
  cases a with
  | char c =>
      refine hr.plain fun d hd => ?_
      rw [List.mem_singleton.mp hd, Ne, char_eq_iff]
      exact (isPlain_iff.mp ha).1
  | site s =>
      refine .spelling ⟨rfl, ha.1.fits rest ha.2, ha.1.known, fun a shown => .inr (ha.1.shown shown)⟩ ?_
      exact hr.plain (Mending.no_colon_argument ha.1)

theorem ColonsNamed.atoms {atoms : List Atom} {rest : List Char} (ha : Row Atom.text Atom.Stands rest.head? atoms)
    (hr : ColonsNamed rest) : ColonsNamed (atoms.flatMap Atom.text ++ rest) := by
  induction atoms with
  | nil => exact hr
  | cons a atoms ih =>
      have first := ha.1
      rw [← List.head?_append] at first
      rw [List.flatMap_cons, List.append_assoc]
      exact .atom first (ih ha.2)

theorem ColonsNamed.item {i : Item} {rest : List Char} (hi : i.Stands rest.head?) (hr : ColonsNamed rest) :
    ColonsNamed (i.text ++ rest) := by
  cases i with
  | atom a => exact .atom hi hr
  | negation word inner miscounted =>
      have known : lower word ∈ "not" :: (elementNames ++ classNames ++ functionNames) := by
        rw [hi.1]
        exact List.mem_cons_self
      have closing := hr.plain (no_colon_mark (c := ')') (by decide))
      have argument := (ColonsNamed.atoms (by exact hi.2.2) closing).plain (no_colon_mark (c := '(') (by decide))
      refine .spelling ⟨rfl, Item.negation_fits hi _, known, fun _ _ => .inl hi.1⟩ ?_
      simpa [argumentText] using argument

theorem colonsNamed_items {items : List Item} (h : AreSound none items) : ColonsNamed (textOf items) := by
  induction items with
  | nil => exact .nil
  | cons i items ih =>
      have first : i.Stands ((textOf items).head?.or none) := h.1
      rw [Option.or_none] at first
      rw [textOf_cons]
      exact .item first (ih h.2)

theorem beginsWith_append {a b text : List Char} (h : beginsWith (a ++ b) text = true) :
    beginsWith a text = true ∧ beginsWith b (text.drop a.length) = true := by
  simp only [beginsWith, beq_iff_eq, List.length_append, List.map_append] at h ⊢
  rw [List.take_add, List.map_append] at h
  have short : (text.take a.length).length ≤ a.length := List.length_take_le _ _
  by_cases full : (text.take a.length).length = a.length
  · exact List.append_inj h (by simpa using full)
  · have length := congrArg List.length h
    simp only [List.length_append, List.length_map, List.length_take, List.length_drop] at length full short
    omega

theorem beginsWith_cons {c : Char} {start text : List Char} (h : beginsWith (c :: start) text = true) :
    ∃ d rest, text = d :: rest ∧ d.toLower = c.toLower ∧ beginsWith start rest = true := by
  cases text with
  | nil => simp [beginsWith] at h
  | cons d rest =>
      simp only [beginsWith, List.length_cons, List.take_succ_cons, List.map_cons, List.cons_beq_cons, Bool.and_eq_true,
        beq_iff_eq] at h ⊢
      exact ⟨d, rest, rfl, h.1, h.2⟩

theorem eq_of_toLower {c d : Char} (h : c.toLower = d) (hd : ¬ (97 ≤ d.toNat ∧ d.toNat ≤ 122)) : c = d := by
  by_cases upper : 65 ≤ c.toNat ∧ c.toNat ≤ 90
  · have shift := toNat_toLower upper
    rw [h] at shift
    omega
  · rwa [toLower_eq_self upper] at h

theorem names_undashed : ∀ n ∈ "not" :: (elementNames ++ classNames ++ functionNames), n.toList.head? ≠ some '-' := by
  decide +kernel

/-- A vendor's mark has a dash behind its colon. -/
theorem vendorSize?_none {text : List Char} (h : ∀ rest, text = ':' :: rest → rest.head? ≠ some '-') :
    vendorSize? text = none := by
  have none : vendorMarks.find? (fun mark => beginsWith mark.toList text) = none := by
    rw [List.find?_eq_none]
    intro mark mem begins
    have shape : ∃ more, mark.toList = ':' :: '-' :: more := by
      simp only [vendorMarks, List.mem_cons, List.not_mem_nil, or_false] at mem
      rcases mem with rfl | rfl | rfl | rfl <;> exact ⟨_, rfl⟩
    obtain ⟨more, shape⟩ := shape
    rw [shape] at begins
    obtain ⟨c, behind, rfl, first, begins⟩ := beginsWith_cons begins
    obtain ⟨d, behind, rfl, second, -⟩ := beginsWith_cons begins
    obtain rfl := eq_of_toLower first (by decide)
    obtain rfl := eq_of_toLower second (by decide)
    exact h _ rfl rfl
  rw [vendorSize?, none]

theorem vendorPseudo_none {text : List Char} (one : ∀ rest, text = ':' :: rest → rest.head? ≠ some '-')
    (two : ∀ rest, text = ':' :: ':' :: rest → rest.head? ≠ some '-') (previous : Option Char) :
    vendorPseudo previous text = none := by
  unfold vendorPseudo
  split
  · next rest =>
      rw [vendorSize?_none fun more same => two more (by rw [same])]
      rfl
  · rw [vendorSize?_none one]
    rfl

/-- No colon of the text stands before a dash. -/
theorem vendorPseudo_idle {text : List Char} (h : ∀ rest, (':' :: rest) <:+ text → rest.head? ≠ some '-') :
    vendorPseudo.edits text = [] := by
  refine editsFrom_nil (fun previous part suffix => vendorPseudo_none (fun rest same => ?_) (fun rest same => ?_) previous)
    0 none
  · exact h rest (same ▸ suffix)
  · exact h rest ((List.suffix_cons _ _).trans (same ▸ suffix))

theorem IsNamed.undashed {text word behind : List Char} {argument : Option (List Char)}
    (h : IsNamed text word argument behind) : text.head? ≠ some '-' := by
  intro dash
  obtain ⟨c, more, rfl⟩ := List.exists_cons_of_ne_nil h.fits.nonempty
  rw [h.text, List.cons_append, List.head?_cons, Option.some_inj] at dash
  rw [dash] at h
  exact names_undashed _ h.known (by rw [toList_lower]; rfl)

theorem ColonsNamed.vendorPseudo_edits {text : List Char} (h : ColonsNamed text) : vendorPseudo.edits text = [] := by
  refine vendorPseudo_idle fun rest suffix => ?_
  rcases h rest suffix with colon | ⟨word, argument, behind, named⟩
  · rw [colon]
    decide
  · exact named.undashed

theorem vendorPseudo_edits {items : List Item} (hi : AreSound none items) : vendorPseudo.edits (textOf items) = [] :=
  (colonsNamed_items hi).vendorPseudo_edits

theorem positionNames_words : ∀ n ∈ positionNames, n ≠ "not" ∧ ∀ c ∈ n.toList, isWordChar c = true ∧ c.toLower = c := by
  have checked : (positionNames.all fun n =>
      n != "not" && n.toList.all fun c => isWordChar c && c.toLower == c) = true := by decide +kernel
  intro n hn
  obtain ⟨other, chars⟩ := (Bool.and_eq_true _ _).mp (List.all_eq_true.mp checked n hn)
  refine ⟨bne_iff_ne.mp other, fun c hc => ?_⟩
  have letter := List.all_eq_true.mp chars c hc
  rwa [Bool.and_eq_true, beq_iff_eq] at letter

/-- A position at the start of a text is the word there, with its argument. -/
theorem position_word {word behind : List Char} {argument : Option (List Char)} {name : String}
    (h : Fits word argument behind) (hn : name ∈ positionNames)
    (begins : beginsWith (name.toList ++ ['(']) (word ++ (argumentText argument ++ behind)) = true) :
    name = lower word ∧ argument.isSome = true := by
  obtain ⟨-, chars⟩ := positionNames_words name hn
  obtain ⟨first, opening⟩ := beginsWith_append begins
  rw [String.length_toList] at opening
  obtain ⟨d, after, open_, lower_, -⟩ := beginsWith_cons opening
  obtain rfl : d = '(' := eq_of_toLower lower_ (by decide)
  -- the name is the word, or else it ends within the word, where no parenthesis stands
  by_cases same : name = lower word
  · refine ⟨same, ?_⟩
    have behind_ := (beginsWith_lower (fun c hc => (chars c hc).2) same (argumentText argument ++ behind)).2
    rw [open_] at behind_
    rw [← h.tail.2.2, ← behind_]
    rfl
  · have short := beginsWith_word chars h.tail.1 first same
    rw [List.drop_append_of_le_length (Nat.le_of_lt short)] at open_
    have visible : word.drop name.length ≠ [] := by
      rw [Ne, List.drop_eq_nil_iff]
      omega
    obtain ⟨e, word', cut⟩ := List.exists_cons_of_ne_nil visible
    rw [cut] at open_
    obtain rfl : e = '(' := (List.cons.inj open_).1
    exact absurd (h.word '(' (List.mem_of_mem_drop (cut ▸ List.mem_cons_self))) (by decide)

/-- The argument of a position that begins a text begins neither a class nor an id. -/
theorem positionArgument {rest word behind : List Char} {argument : Option (List Char)} {name : String}
    (h : IsNamed rest word argument behind) (hn : name ∈ positionNames)
    (begins : beginsWith (name.toList ++ ['(']) rest = true) {c : Char} {more : List Char}
    (start : rest.drop (name.length + 1) = c :: more) : ¬ (c = '.' ∨ c = '#') := by
  obtain ⟨other, chars⟩ := positionNames_words name hn
  rw [h.text] at begins start
  obtain ⟨same, some⟩ := position_word h.fits hn begins
  obtain ⟨a, rfl⟩ := Option.isSome_iff_exists.mp some
  have behind_ := (beginsWith_lower (fun c hc => (chars c hc).2) same (argumentText (.some a) ++ behind)).2
  have inside : ∀ c ∈ a, isBareChar c = true := by
    refine (h.argument a rfl).resolve_left fun not => other ?_
    rw [same, not]
  rw [← List.drop_drop, behind_] at start
  cases a with
  | nil =>
      obtain rfl : ')' = c := (List.cons.inj start).1
      decide
  | cons e a =>
      obtain rfl : e = c := (List.cons.inj start).1
      have visible := inside e List.mem_cons_self
      simp only [isBareChar, Bool.and_eq_true, bne_iff_ne] at visible
      exact not_or.mpr ⟨visible.1.2, visible.2⟩

theorem position_head {rest : List Char} {name : String} (hn : name ∈ positionNames)
    (begins : beginsWith (name.toList ++ ['(']) rest = true) : rest.head? ≠ some ':' := by
  intro colon
  have known : name ∈ "not" :: (elementNames ++ classNames ++ functionNames) :=
    List.mem_cons_of_mem _ (List.mem_append_right _ (List.mem_cons_of_mem _ hn))
  obtain ⟨x, xs, word⟩ := List.exists_cons_of_ne_nil (names_written name known).1
  rw [word, List.cons_append] at begins
  obtain ⟨d, after, rfl, first, -⟩ := beginsWith_cons begins
  obtain rfl : d = ':' := Option.some.inj colon
  obtain ⟨letter, low⟩ := (positionNames_words name hn).2 x (by rw [word]; exact List.mem_cons_self)
  rw [low] at first
  rw [← first] at letter
  exact absurd letter (by decide)

theorem selectorPosition?_none {text : List Char} (h : ∀ rest, text = ':' :: rest → ∀ name ∈ positionNames,
    beginsWith (name.toList ++ ['(']) rest = true → ∀ c more, rest.drop (name.length + 1) = c :: more →
      ¬ (c = '.' ∨ c = '#')) : selectorPosition? text = none := by
  rw [selectorPosition?]
  split
  · rfl
  · next name found =>
      have begins := List.find?_some found
      obtain ⟨d, rest, rfl, first, begins⟩ := beginsWith_cons begins
      obtain rfl : d = ':' := eq_of_toLower first (by decide)
      split
      · next c more start =>
          rw [if_neg (h rest rfl name (List.mem_of_find?_eq_some found) begins c more start)]
      · rfl

/-- No position with a class or an id. -/
theorem selectorPosition_idle {text : List Char} (h : ∀ rest, (':' :: rest) <:+ text → ∀ name ∈ positionNames,
    beginsWith (name.toList ++ ['(']) rest = true → ∀ c more, rest.drop (name.length + 1) = c :: more →
      ¬ (c = '.' ∨ c = '#')) : selectorPosition text = [] := by
  have none : places (fun rest => (selectorPosition? rest).isSome) 0 text = [] := by
    refine places_nil (fun rest suffix => ?_) 0
    rw [selectorPosition?_none fun more same => h more (same ▸ suffix)]
    rfl
  rw [selectorPosition, none]
  rfl

/-- Where a name that is known stands behind a colon, no position is a class or an id. -/
theorem position_named {rest : List Char}
    (h : rest.head? = some ':' ∨ ∃ word argument behind, IsNamed rest word argument behind) :
    ∀ name ∈ positionNames, beginsWith (name.toList ++ ['(']) rest = true →
      ∀ c more, rest.drop (name.length + 1) = c :: more → ¬ (c = '.' ∨ c = '#') := by
  intro name mem begins c more start
  rcases h with colon | ⟨word, argument, behind, named⟩
  · exact absurd colon (position_head mem begins)
  · exact positionArgument named mem begins start

theorem ColonsNamed.selectorPosition_edits {text : List Char} (h : ColonsNamed text) : selectorPosition text = [] :=
  selectorPosition_idle fun rest suffix => position_named (h rest suffix)

theorem selectorPosition_edits {items : List Item} (hi : AreSound none items) : selectorPosition (textOf items) = [] :=
  (colonsNamed_items hi).selectorPosition_edits

end StyleAudit.Selector
