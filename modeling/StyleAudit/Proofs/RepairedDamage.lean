import StyleAudit.Proofs.RepairRounds
import StyleAudit.Proofs.AcceptedSelectors
import StyleAudit.Proofs.ModeledSelectors
/-!
Repair leaves alone what is accepted, and it undoes damage. A selector that is accepted may be damaged at any of its pseudos; it is accepted again after two
rounds at most, with one repair for each damage.
-/
namespace StyleAudit.Selector

/-- A text with damage at some of its pseudos, in front of which stands the given character: two colons of a
pseudo-element are one, the one of a pseudo-class are two, and a position of `0n` is a zero. -/
inductive Damaged : Option Char → List Char → List Char → List RepairKind → Prop
  | done {previous : Option Char} : Damaged previous [] [] []
  | keep {previous : Option Char} {c : Char} {rest out : List Char} {kinds : List RepairKind} :
      Damaged (some c) rest out kinds → Damaged previous (c :: rest) (c :: out) kinds
  | halved {previous : Option Char} {rest out : List Char} {kinds : List RepairKind} :
      Damaged (some ':') rest out kinds →
        Damaged previous (':' :: ':' :: rest) (':' :: out) (.pseudoElementConfusion :: kinds)
  | doubled {previous : Option Char} {rest out : List Char} {kinds : List RepairKind} :
      previous ≠ some ':' → rest.head? ≠ some ':' → Damaged (some ':') rest out kinds →
        Damaged previous (':' :: rest) (':' :: ':' :: out) (.pseudoClassConfusion :: kinds)
  | zeroed {name rest out : List Char} {kinds : List RepairKind} :
      lower name ∈ ["nth-child", "nth-of-type", "nth-last-child"] → Damaged (some ')') rest out kinds →
        Damaged (some ':') (name ++ "(0n)".toList ++ rest) (name ++ "(0)".toList ++ out) (.ordinality :: kinds)

/-- No damage is damage too. -/
theorem Damaged.same (previous : Option Char) (text : List Char) : Damaged previous text text [] := by
  induction text generalizing previous with
  | nil => exact .done
  | cons c text ih => exact .keep (ih (some c))

/-- Damage that does not start in the middle of a pseudo. -/
def DamagedOn (text out : List Char) (kinds : List RepairKind) : Prop :=
  ∃ previous, previous ≠ some ':' ∧ Damaged previous text out kinds

theorem DamagedOn.nil {out : List Char} {kinds : List RepairKind} (h : DamagedOn [] out kinds) : out = [] ∧ kinds = [] := by
  obtain ⟨previous, other, h⟩ := h
  generalize same : ([] : List Char) = text at h
  cases h with
  | done => exact ⟨rfl, rfl⟩
  | keep _ => cases same
  | halved _ => cases same
  | doubled _ _ _ => cases same
  | zeroed _ _ => exact absurd rfl other

/-- Only colons and what stands behind them can be damaged. -/
theorem DamagedOn.plain {front rest out : List Char} {kinds : List RepairKind} (hf : ∀ c ∈ front, c ≠ ':')
    (h : DamagedOn (front ++ rest) out kinds) : ∃ behind, out = front ++ behind ∧ DamagedOn rest behind kinds := by
  induction front generalizing out with
  | nil => exact ⟨out, rfl, h⟩
  | cons c front ih =>
      obtain ⟨previous, other, h⟩ := h
      have first := hf c List.mem_cons_self
      rw [List.cons_append] at h
      generalize same : c :: (front ++ rest) = text at h
      cases h with
      | done => cases same
      | keep h =>
          obtain ⟨rfl, rfl⟩ := List.cons.inj same
          obtain ⟨behind, rfl, on⟩ := ih (fun d hd => hf d (List.mem_cons_of_mem c hd)) ⟨_, by simpa using first, h⟩
          exact ⟨behind, rfl, on⟩
      | halved _ => exact absurd (List.cons.inj same).1 first
      | doubled _ _ _ => exact absurd (List.cons.inj same).1 first
      | zeroed _ _ => exact absurd rfl other

/-- Whether colons are as they should be or not, how they are written. -/
def writtenColons (own : Colons) (miscounted : Bool) : Colons :=
  match own, miscounted with
  | .one, false | .two, true => .one
  | .two, false | .one, true => .two

/-- What is wrong with colons that are not as they should be. -/
def colonKinds (own : Colons) (miscounted : Bool) : List RepairKind :=
  match own, miscounted with
  | _, false => []
  | .one, true => [.pseudoClassConfusion]
  | .two, true => [.pseudoElementConfusion]

theorem zeroNames_word {name : List Char} (h : lower name ∈ ["nth-child", "nth-of-type", "nth-last-child"]) :
    lower name ∈ zeroNames ∧ name ≠ [] ∧ ∀ c ∈ name, isWordChar c = true := by
  have known : lower name ∈ "not" :: (elementNames ++ classNames ++ functionNames) ∧ lower name ∈ zeroNames := by
    simp only [List.mem_cons, List.not_mem_nil, or_false] at h
    rcases h with h | h | h <;> rw [h] <;> decide +kernel
  exact ⟨known.2, word_of_lower known.1⟩

/-- Damage at a pseudo starts with its colons. -/
theorem DamagedOn.colons {own : Colons} {c : Char} {rest out : List Char} {kinds : List RepairKind} (hc : c ≠ ':')
    (h : DamagedOn (own.text ++ c :: rest) out kinds) : ∃ miscounted behind more,
      out = (writtenColons own miscounted).text ++ behind ∧ kinds = colonKinds own miscounted ++ more ∧
        Damaged (some ':') (c :: rest) behind more := by
  obtain ⟨previous, other, h⟩ := h
  generalize same : own.text ++ c :: rest = text at h
  cases own with
  | one =>
      change ':' :: c :: rest = text at same
      cases h with
      | done => cases same
      | keep h =>
          obtain ⟨rfl, rfl⟩ := List.cons.inj same
          exact ⟨false, _, _, rfl, rfl, h⟩
      | halved _ => exact absurd (List.cons.inj (List.cons.inj same).2).1 hc
      | doubled _ _ h =>
          obtain ⟨-, rfl⟩ := List.cons.inj same
          exact ⟨true, _, _, rfl, rfl, h⟩
      | zeroed _ _ => exact absurd rfl other
  | two =>
      change ':' :: ':' :: c :: rest = text at same
      cases h with
      | done => cases same
      | keep h =>
          obtain ⟨rfl, rfl⟩ := List.cons.inj same
          generalize same : ':' :: c :: rest = text at h
          -- behind a colon only the name can be damaged
          cases h with
          | done => cases same
          | keep h =>
              obtain ⟨rfl, rfl⟩ := List.cons.inj same
              exact ⟨false, _, _, rfl, rfl, h⟩
          | halved _ => exact absurd (List.cons.inj (List.cons.inj same).2).1 hc
          | doubled other _ _ => exact absurd rfl other
          | zeroed name _ =>
              obtain ⟨-, visible, chars⟩ := zeroNames_word name
              obtain ⟨d, more, rfl⟩ := List.exists_cons_of_ne_nil visible
              obtain rfl : ':' = d := (List.cons.inj same).1
              exact absurd (chars ':' List.mem_cons_self) (by decide)
      | halved h =>
          obtain ⟨-, rfl⟩ := List.cons.inj (List.cons.inj same).2
          exact ⟨true, _, _, rfl, rfl, h⟩
      | doubled _ next _ =>
          obtain ⟨-, rfl⟩ := List.cons.inj same
          exact absurd rfl next
      | zeroed _ _ => exact absurd rfl other

/-- A name ends where a character stands that is in no word. -/
theorem word_unique {word name rest behind : List Char} (hw : ∀ c ∈ word, isWordChar c = true)
    (hn : ∀ c ∈ name, isWordChar c = true) (hr : StopsAt isWordChar rest) (hb : StopsAt isWordChar behind)
    (same : word ++ rest = name ++ behind) : word = name ∧ rest = behind := by
  have taken {w r : List Char} (hw : ∀ c ∈ w, isWordChar c = true) (hr : StopsAt isWordChar r) :
      (w ++ r).takeWhile isWordChar = w := by
    rw [List.takeWhile_append_of_pos hw]
    cases r with
    | nil => simp
    | cons c r => rw [List.takeWhile_cons, hr c rfl]; simp
  have words : word = name := by rw [← taken hw hr, same, taken hn hb]
  subst words
  exact ⟨rfl, List.append_cancel_left same⟩

/-- An argument ends where its parentheses close. -/
theorem closed_unique {word inner rest behind : List Char} {argument : Option (List Char)} (hf : Fits word argument rest)
    (closed : IsClosed inner) (same : argumentText argument ++ rest = argumentText (some inner) ++ behind) :
    argument = some inner ∧ rest = behind := by
  cases argument with
  | none =>
      have stop := hf.ends rfl '('
      rw [argumentText, List.nil_append] at same
      rw [same] at stop
      exact absurd (stop rfl) (by decide)
  | some a =>
      have size := argument?_closed (hf.closed a rfl) rest
      have size' := argument?_closed closed behind
      have text : '(' :: (a ++ ')' :: rest) = '(' :: (inner ++ ')' :: behind) := by
        simpa [argumentText] using same
      rw [text, size'] at size
      have length : a.length = inner.length := by
        have := Option.some.inj size
        omega
      obtain ⟨rfl, tail⟩ := List.append_inj (List.cons.inj text).2 length
      exact ⟨rfl, (List.cons.inj tail).2⟩

theorem isClosed_zero : IsClosed "0n".toList := Site.isClosed_of_isPlain (List.all_eq_true.mp (by decide))

/-- Behind its colons a pseudo is damaged at most in a position of `0n`. -/
theorem Damaged.name {word rest out : List Char} {argument : Option (List Char)} {kinds : List RepairKind}
    (hf : Fits word argument rest) (h : Damaged (some ':') (word ++ (argumentText argument ++ rest)) out kinds) :
    (∃ behind, out = word ++ behind ∧ DamagedOn (argumentText argument ++ rest) behind kinds) ∨
      (argument = some "0n".toList ∧ lower word ∈ zeroNames ∧ ∃ behind more,
        out = word ++ ("(0)".toList ++ behind) ∧ kinds = .ordinality :: more ∧ DamagedOn rest behind more) := by
  obtain ⟨c, more, rfl, colon⟩ := hf.head
  generalize same : c :: more ++ (argumentText argument ++ rest) = text at h
  cases h with
  | done => cases same
  | keep h =>
      rw [List.cons_append] at same
      obtain ⟨rfl, rfl⟩ := List.cons.inj same
      have on : DamagedOn (more ++ (argumentText argument ++ rest)) _ kinds := ⟨_, by simpa using colon, h⟩
      obtain ⟨behind, rfl, after⟩ := on.plain fun d hd => hf.no_colon d (List.mem_cons_of_mem c hd)
      exact .inl ⟨behind, rfl, after⟩
  | halved _ => exact absurd (List.cons.inj same).1 colon
  | doubled other _ _ => exact absurd rfl other
  | @zeroed name rest' out kinds zero h =>
      obtain ⟨mem, -, chars⟩ := zeroNames_word zero
      rw [List.append_assoc] at same
      obtain ⟨rfl, behind⟩ := word_unique hf.word chars hf.tail.1 (.cons (by decide)) same
      obtain ⟨rfl, rfl⟩ := closed_unique hf isClosed_zero behind
      exact .inr ⟨rfl, mem, out, kinds, by rw [List.append_assoc], rfl, some ')', by decide, h⟩

/-! Damaged items. -/

theorem Site.colons_damaged {s : Site} (h : s.miscounted = false) (miscounted zeroed : Bool) :
    ({ s with miscounted := miscounted, zeroed := zeroed } : Site).colons = writtenColons s.colons miscounted ∧
      ({ s with miscounted := miscounted, zeroed := zeroed } : Site).damage =
        colonKinds s.colons miscounted ++ if zeroed then [.ordinality] else [] := by
  have same : ({ s with miscounted := miscounted, zeroed := zeroed } : Site).isElement = s.isElement := rfl
  unfold Site.colons Site.damage
  rw [same, h]
  cases s.isElement <;> cases miscounted <;> exact ⟨rfl, rfl⟩

theorem DamagedOn.site {s : Site} {rest out : List Char} {kinds : List RepairKind} (hs : s.IsSound)
    (he : s.EndsBefore rest.head?) (hu : s.damage = []) (h : DamagedOn (s.text ++ rest) out kinds) :
    ∃ (s' : Site) (behind : List Char) (more : List RepairKind), out = s'.text ++ behind ∧ kinds = s'.damage ++ more ∧
      s'.proper = s ∧ s'.IsSound ∧ s'.EndsBefore rest.head? ∧ DamagedOn rest behind more := by
  have proper := Site.proper_of_damage hu
  have counted : s.miscounted = false := by rw [← proper]; rfl
  have nonzero : s.zeroed = false := by rw [← proper]; rfl
  have shown : s.shown = s.argument := by rw [Site.shown, nonzero, if_neg Bool.false_ne_true]
  have fits := hs.fits rest he
  have no_colon := Mending.no_colon_argument hs
  rw [shown] at fits no_colon
  obtain ⟨c, word, first, colon⟩ := fits.head
  rw [Site.text, spelling, shown, List.append_assoc, List.append_assoc, first, List.cons_append] at h
  obtain ⟨miscounted, behind, more, rfl, rfl, named⟩ := h.colons colon
  rw [← List.cons_append, ← first] at named
  rcases named.name fits with ⟨behind, rfl, on⟩ | ⟨has, name, behind, more, rfl, rfl, on⟩
  · obtain ⟨behind, rfl, after⟩ := on.plain no_colon
    obtain ⟨colons, damage⟩ := Site.colons_damaged counted miscounted false
    refine ⟨{ s with miscounted := miscounted, zeroed := false }, behind, more, ?_, ?_, ?_, ?_, he, after⟩
    · rw [Site.text, colons]
      simp [spelling, Site.shown]
    · rw [damage]
      simp
    · exact proper
    · exact ⟨hs.plain, hs.function, hs.argument, hs.zero, fun zeroed => by cases zeroed⟩
  · obtain ⟨colons, damage⟩ := Site.colons_damaged counted miscounted true
    refine ⟨{ s with miscounted := miscounted, zeroed := true }, behind, more, ?_, ?_, ?_, ?_, he, on⟩
    · rw [Site.text, colons]
      simp [spelling, Site.shown, argumentText]
    · rw [damage]
      simp
    · exact proper
    · exact ⟨hs.plain, hs.function, hs.argument, hs.zero, fun _ => ⟨has, name⟩⟩

theorem DamagedOn.atom {a : Atom} {rest out : List Char} {kinds : List RepairKind} (ha : a.Stands rest.head?)
    (hu : a.damage = []) (h : DamagedOn (a.text ++ rest) out kinds) :
    ∃ (a' : Atom) (behind : List Char) (more : List RepairKind), out = a'.text ++ behind ∧ kinds = a'.damage ++ more ∧
      a'.map Site.proper = a ∧ a'.Stands rest.head? ∧ DamagedOn rest behind more := by
  cases a with
  | char c =>
      have other : ∀ d ∈ [c], d ≠ ':' := by
        intro d hd
        rw [List.mem_singleton.mp hd, Ne, char_eq_iff]
        exact (isPlain_iff.mp ha).1
      obtain ⟨behind, rfl, on⟩ := h.plain other
      exact ⟨.char c, behind, kinds, rfl, rfl, rfl, ha, on⟩
  | site s =>
      obtain ⟨s', behind, more, text, damage, proper, sound, ends, on⟩ := h.site ha.1 ha.2 hu
      exact ⟨.site s', behind, more, text, damage, congrArg Atom.site proper, ⟨sound, ends⟩, on⟩

theorem DamagedOn.atoms {atoms : List Atom} {rest out : List Char} {kinds : List RepairKind}
    (ha : Row Atom.text Atom.Stands rest.head? atoms) (hu : atoms.flatMap Atom.damage = [])
    (h : DamagedOn (atoms.flatMap Atom.text ++ rest) out kinds) :
    ∃ (atoms' : List Atom) (behind : List Char) (more : List RepairKind),
      out = atoms'.flatMap Atom.text ++ behind ∧ kinds = atoms'.flatMap Atom.damage ++ more ∧
        atoms'.map (Atom.map Site.proper) = atoms ∧ Row Atom.text Atom.Stands rest.head? atoms' ∧
          DamagedOn rest behind more := by
  induction atoms generalizing out kinds with
  | nil => exact ⟨[], out, kinds, rfl, rfl, rfl, trivial, h⟩
  | cons a atoms ih =>
      have first := ha.1
      rw [← List.head?_append] at first
      rw [List.flatMap_cons, List.append_eq_nil_iff] at hu
      rw [List.flatMap_cons, List.append_assoc] at h
      obtain ⟨a', behind, more, rfl, rfl, proper, stands, on⟩ := h.atom first hu.1
      obtain ⟨atoms', behind, more, rfl, rfl, propers, row, after⟩ := ih ha.2 hu.2 on
      refine ⟨a' :: atoms', behind, more, ?_, ?_, ?_, ⟨?_, row⟩, after⟩
      · rw [List.flatMap_cons, List.append_assoc]
      · rw [List.flatMap_cons, List.append_assoc]
      · rw [List.map_cons, proper, propers]
      · have heads := row.head? fun _ a _ => ⟨a.text_visible, a.head?_map Site.proper⟩
        rwa [List.head?_append, ← propers, heads] at stands

theorem DamagedOn.item {i : Item} {rest out : List Char} {kinds : List RepairKind} (hi : i.Stands rest.head?)
    (hu : i.damage = []) (h : DamagedOn (i.text ++ rest) out kinds) :
    ∃ (i' : Item) (behind : List Char) (more : List RepairKind), out = i'.text ++ behind ∧ kinds = i'.damage ++ more ∧
      i'.proper = i ∧ i'.Stands rest.head? ∧ DamagedOn rest behind more := by
  cases i with
  | atom a =>
      obtain ⟨a', behind, more, text, damage, proper, stands, on⟩ := h.atom hi hu
      exact ⟨.atom a', behind, more, text, damage, congrArg Item.atom proper, stands, on⟩
  | negation word inner miscounted =>
      obtain ⟨colons, inside⟩ := List.append_eq_nil_iff.mp hu
      obtain rfl : miscounted = false := by
        cases miscounted with
        | false => rfl
        | true => cases colons
      have fits := Item.negation_fits hi rest
      obtain ⟨c, tail, first, colon⟩ := fits.head
      have text : (Item.negation word inner false).text ++ rest =
          Colons.one.text ++ c :: (tail ++ (argumentText (some (inner.flatMap Atom.text)) ++ rest)) := by
        simp [Item.text, Item.negationColons, spelling, first]
      rw [text] at h
      obtain ⟨miscounted, behind, more, rfl, rfl, named⟩ := h.colons colon
      rw [← List.cons_append, ← first] at named
      rcases named.name fits with ⟨behind, rfl, on⟩ | ⟨-, name, -⟩
      · have parenthesis (c : Char) (hc : c ≠ ':') : ∀ d ∈ [c], d ≠ ':' := fun d hd => by rwa [List.mem_singleton.mp hd]
        have argument : argumentText (some (inner.flatMap Atom.text)) ++ rest =
            ['('] ++ (inner.flatMap Atom.text ++ ([')'] ++ rest)) := by simp [argumentText]
        rw [argument] at on
        obtain ⟨behind, rfl, opened⟩ := on.plain (no_colon_mark (by decide))
        have row : Row Atom.text Atom.Stands ([')'] ++ rest).head? inner := hi.2.2
        obtain ⟨inner', behind, more, rfl, rfl, proper, row', held⟩ := opened.atoms row inside
        obtain ⟨behind, rfl, after⟩ := held.plain (no_colon_mark (by decide))
        refine ⟨.negation word inner' miscounted, behind, more, ?_, ?_, ?_, ⟨hi.1, ?_, row'⟩, after⟩
        · cases miscounted <;> simp [Item.text, Item.negationColons, writtenColons, spelling, argumentText]
        · cases miscounted <;> simp [Item.damage, colonKinds]
        · rw [Item.proper, proper]
        · obtain ⟨a, mem, visible⟩ := hi.2.1
          rw [← proper] at mem
          obtain ⟨b, held, rfl⟩ := List.mem_map.mp mem
          refine ⟨b, held, ?_⟩
          cases b with
          | char c => exact visible
          | site s => rfl
      · rw [hi.1] at name
        exact absurd name (by decide +kernel)

theorem DamagedOn.items {items : List Item} {rest out : List Char} {kinds : List RepairKind}
    (hi : AreSound rest.head? items) (hu : damageOf items = []) (h : DamagedOn (textOf items ++ rest) out kinds) :
    ∃ (items' : List Item) (behind : List Char) (more : List RepairKind), out = textOf items' ++ behind ∧
      kinds = damageOf items' ++ more ∧ items'.map Item.proper = items ∧ AreSound rest.head? items' ∧
        DamagedOn rest behind more := by
  induction items generalizing out kinds with
  | nil => exact ⟨[], out, kinds, rfl, rfl, rfl, trivial, h⟩
  | cons i items ih =>
      have first : i.Stands ((textOf items).head?.or rest.head?) := hi.1
      rw [← List.head?_append] at first
      rw [damageOf_cons, List.append_eq_nil_iff] at hu
      rw [textOf_cons, List.append_assoc] at h
      obtain ⟨i', behind, more, rfl, rfl, proper, stands, on⟩ := h.item first hu.1
      obtain ⟨items', behind, more, rfl, rfl, propers, row, after⟩ := ih hi.2 hu.2 on
      refine ⟨i' :: items', behind, more, ?_, ?_, ?_, ⟨?_, row⟩, after⟩
      · rw [textOf_cons, List.append_assoc]
      · rw [damageOf_cons, List.append_assoc]
      · rw [List.map_cons, proper, propers]
      · have heads := row.head? fun _ i _ => ⟨i.text_visible, i.head?_proper⟩
        rw [List.head?_append, textOf, ← propers, heads] at stands
        exact stands

/-! Blanks around a damaged text. -/

theorem no_colon_blank {text : List Char} (h : ∀ c ∈ text, Text.isBlank c = true) : ∀ c ∈ text, c ≠ ':' := by
  rintro c hc rfl
  exact absurd (h ':' hc) (by decide)

/-- Items that are trimmed as a text are trimmed as items. -/
theorem areTrimmed_trim {items : List Item} {text : List Char} (h : Text.trim text = textOf items) :
    AreTrimmed items := by
  obtain ⟨first, last⟩ := Text.trim_ends text
  rw [h] at first last
  refine ⟨fun i hi => ?_, fun i hi => ?_⟩
  · obtain ⟨rest, rfl⟩ := List.head?_eq_some_iff.mp hi
    cases i with
    | atom a =>
        cases a with
        | char c => exact first c rfl
        | site s => rfl
    | negation word inner miscounted => rfl
  · obtain ⟨front, rfl⟩ := List.getLast?_eq_some_iff.mp hi
    cases i with
    | atom a =>
        cases a with
        | char c => exact last c (by rw [textOf_append]; exact List.getLast?_concat)
        | site s => rfl
    | negation word inner miscounted => rfl

theorem Item.isBlank_proper (i : Item) : i.proper.isBlank = i.isBlank := by
  cases i with
  | atom a => cases a <;> rfl
  | negation word inner miscounted => rfl

theorem AreTrimmed.of_proper {items : List Item} (h : AreTrimmed (items.map Item.proper)) : AreTrimmed items := by
  refine ⟨fun i hi => ?_, fun i hi => ?_⟩
  · rw [← i.isBlank_proper]
    exact h.first _ (by rw [List.head?_map, hi]; rfl)
  · rw [← i.isBlank_proper]
    exact h.last _ (by rw [List.getLast?_map, hi]; rfl)

/-- A damaged selector, without the blanks around it, is the items of the selector with that damage. -/
theorem damaged_items {text damaged : List Char} {kinds : List RepairKind} (hd : Damaged none text damaged kinds)
    (hu : IsUnquoted text) {list : List Complex} (accepted : selectors 0 (Text.trim text) = .ok list) :
    ∃ items, AreSound none items ∧ AreTrimmed items ∧ damageOf items = kinds ∧ Text.trim damaged = textOf items ∧
      Text.trim text = textOf (items.map Item.proper) := by
  obtain ⟨before, behind, parts, blank, blank'⟩ := Text.trim_parts text
  have inside : IsUnquoted (Text.trim text) := hu.mono fun c hc => by rw [parts]; simp [hc]
  obtain ⟨items, same, sound, undamaged⟩ := accepted_items inside accepted
  have trimmed := areTrimmed_trim same
  have on : DamagedOn text damaged kinds := ⟨none, by simp, hd⟩
  rw [parts, same] at on
  obtain ⟨out, rfl, core⟩ := on.plain (no_colon_blank blank)
  have sound' : AreSound behind.head? items :=
    sound.before fun _ _ hi => hi.before fun c hc => ends_blank (blank' c (List.mem_of_mem_head? hc))
  obtain ⟨items', out, more, rfl, rfl, proper, sound', rest⟩ := core.items sound' undamaged
  rw [← List.append_nil behind] at rest
  obtain ⟨out, rfl, nothing⟩ := rest.plain (no_colon_blank blank')
  obtain ⟨rfl, rfl⟩ := nothing.nil
  rw [← proper] at trimmed same
  have trimmed' := trimmed.of_proper
  have whole := trim_items sound' trimmed'
  refine ⟨items', sound'.before fun _ _ hi => hi.before (by simp), trimmed', (List.append_nil _).symm, ?_, same⟩
  rw [List.append_nil]
  exact Text.trim_append blank blank' whole

/-- Repair leaves alone what is accepted: no rule finds anything in it. -/
theorem repair_accepted {text : String} {list : List Complex} (hu : IsUnquoted text.toList)
    (accepted : parse text = .ok list) : repair text.toList = ⟨Text.trim text.toList, 0, []⟩ := by
  obtain ⟨items, same, sound, undamaged⟩ := accepted_items hu accepted
  rw [same]
  exact repair_undamaged sound undamaged

/-- Names that begin like those of other rules, a position with a zero in it, and a class name that is a blank. -/
theorem repair_accepted_names :
    (IsUnquoted "\tli:first-child:not(:nth-child(0n) )+a:link::first-line,b.\u00a0".toList ∧
      parse "\tli:first-child:not(:nth-child(0n) )+a:link::first-line,b.\u00a0" = .ok
        [⟨[.element "li", .pseudoClass .firstChild, .negation (.position .nthChild ⟨0, 0⟩)],
            [(.nextSibling, [.element "a", .pseudoClass .link, .pseudoElement .firstLine])]⟩,
          ⟨[.element "b", .className "\u00a0"], []⟩]) ∧
    repair "\tli:first-child:not(:nth-child(0n) )+a:link::first-line,b.\u00a0".toList =
      ⟨Text.trim "\tli:first-child:not(:nth-child(0n) )+a:link::first-line,b.\u00a0".toList, 0, []⟩ := by
  have unquoted : IsUnquoted "\tli:first-child:not(:nth-child(0n) )+a:link::first-line,b.\u00a0".toList :=
    isUnquoted_of_all (by decide)
  have accepted : parse "\tli:first-child:not(:nth-child(0n) )+a:link::first-line,b.\u00a0" = .ok
      [⟨[.element "li", .pseudoClass .firstChild, .negation (.position .nthChild ⟨0, 0⟩)],
          [(.nextSibling, [.element "a", .pseudoClass .link, .pseudoElement .firstLine])]⟩,
        ⟨[.element "b", .className "\u00a0"], []⟩] := by cbv
  exact ⟨⟨unquoted, accepted⟩, repair_accepted unquoted accepted⟩

/-- Sound items that are damaged are rejected. -/
theorem rejected {items : List Item} (hi : AreSound none items) (hd : damageOf items ≠ []) :
    (repair (textOf items)).count ≠ 0 ∧ ∃ rejection, selectors 0 (textOf items) = .error rejection := by
  obtain ⟨r, reached, same⟩ := repair_items hi
  have count : (repair (textOf items)).count = (roundKinds items).length := by rw [same]; exact reached.count
  have some : (repair (textOf items)).count ≠ 0 := by
    rw [count, Ne, List.length_eq_zero_iff]
    exact fun none => hd (damage_of_roundKinds none)
  refine ⟨some, ?_⟩
  cases read : selectors 0 (textOf items) with
  | error rejection => exact ⟨rejection, rfl⟩
  | ok list =>
      have unquoted : IsUnquoted (textOf items) := by
        intro c hc
        have visible := (isVisible_items hi c hc).toNat
        rw [Ne, Ne, Ne, char_eq_iff, char_eq_iff, char_eq_iff]
        exact ⟨visible.1, visible.2.1, visible.2.2.1⟩
      obtain ⟨items', text, sound, undamaged⟩ := accepted_items unquoted read
      rw [text, repair_undamaged sound undamaged] at some
      exact absurd rfl some

end StyleAudit.Selector

namespace StyleAudit

open Selector

/-! The rounds of an inspection. -/

section
variable {v : Vocabulary} {line : Nat} {written : String} {list : List Selector.Complex} {uses : List Use} {items : List Item}

theorem inspectFrom_accepted {text : List Char} (accepted : selectors 0 text = .ok list)
    (modeled : selectorUses v list = .ok uses) (rounds : Nat) :
    inspectFrom v line written rounds text = { findings := .ofUses line uses } := by
  have visible : text ≠ [] := by
    rintro rfl
    rw [selectors_nil] at accepted
    cases accepted
  rw [inspectFrom.eq_def, if_neg visible, accepted]
  dsimp only
  rw [modeled]

theorem inspectFrom_undamaged (hu : damageOf items = []) (accepted : selectors 0 (textOf (items.map Item.proper)) = .ok list)
    (modeled : selectorUses v list = .ok uses) (rounds : Nat) :
    inspectFrom v line written rounds (textOf items) = { findings := .ofUses line uses } := by
  have same : items.map Item.proper = items.map id :=
    List.map_congr_left fun i mem => proper_of_damage (List.flatMap_eq_nil_iff.mp hu i mem)
  rw [same, List.map_id] at accepted
  exact inspectFrom_accepted accepted modeled rounds

/-- A round on damaged items. -/
theorem inspectFrom_round (v : Vocabulary) (line : Nat) (written : String) (hi : AreSound none items)
    (ht : AreTrimmed items) (hd : damageOf items ≠ []) :
    ∃ repairs : List Repair, repairs.map Repair.kind = roundKinds items ∧ (∀ r ∈ repairs, r.line = line) ∧
      ∀ rounds, inspectFrom v line written (rounds + 1) (textOf items) =
        (inspectFrom v line written rounds (textOf (items.map Item.mended))).after { repairs := repairs } := by
  obtain ⟨some, rejection, error⟩ := rejected hi hd
  obtain ⟨r, reached, same⟩ := repair_items hi
  have text : (repair (textOf items)).text = textOf (items.map Item.mended) := by
    rw [same]
    dsimp only
    rw [reached.text]
    exact trim_items (areSound_mended hi) (areTrimmed_mended ht)
  have visible : textOf items ≠ [] := by
    intro none
    rw [damageOf, Ne, List.flatMap_eq_nil_iff] at hd
    refine hd fun i mem => absurd (List.flatMap_eq_nil_iff.mp none i mem) i.text_visible
  refine ⟨(roundFindings line (repair (textOf items))).repairs, ?_, ?_, fun rounds => ?_⟩
  · rw [same, roundFindings, List.map_map]
    exact reached.recorded
  · intro r mem
    obtain ⟨⟨kind, replacement⟩, -, rfl⟩ := List.mem_map.mp mem
    rfl
  · rw [inspectFrom.eq_def, if_neg visible, error]
    dsimp only
    rw [if_neg some, text]
    rfl

/-- Two rounds do for any damage. -/
theorem inspectFrom_items (line : Nat) (written : String) (hi : AreSound none items) (ht : AreTrimmed items)
    (accepted : selectors 0 (textOf (items.map Item.proper)) = .ok list) (modeled : selectorUses v list = .ok uses) :
    ∃ repairs : List Repair, (repairs.map Repair.kind).Perm (damageOf items) ∧ (∀ r ∈ repairs, r.line = line) ∧
      ∀ rounds, inspectFrom v line written (rounds + 2) (textOf items) =
        { findings := { repairs := repairs, uses := uses.map (line, ·) } } := by
  by_cases undamaged : damageOf items = []
  · refine ⟨[], by rw [undamaged]; exact .refl _, by simp, fun rounds => ?_⟩
    rw [inspectFrom_undamaged undamaged accepted modeled]
    rfl
  · obtain ⟨first, kinds, lines, step⟩ := inspectFrom_round v line written hi ht undamaged
    have round := damage_round items
    rw [← kinds] at round
    rw [← map_proper_mended] at accepted
    by_cases done : damageOf (items.map Item.mended) = []
    · rw [done, List.append_nil] at round
      refine ⟨first, round.symm, lines, fun rounds => ?_⟩
      rw [step, inspectFrom_undamaged done accepted modeled, Inspection.after]
      congr 1
      ext1 <;> simp [Findings.ofUses]
    · -- what is left stood in negations with the wrong colons, and these have the right ones now
      obtain ⟨second, kinds', lines', step'⟩ :=
        inspectFrom_round v line written (areSound_mended hi) (areTrimmed_mended ht) done
      have settled : (items.map Item.mended).map Item.mended = (items.map Item.mended).map Item.proper := by
        rw [List.map_map, List.map_map]
        exact List.map_congr_left fun i _ => (settled_mended i).mended
      have nothing : damageOf ((items.map Item.mended).map Item.mended) = [] := by
        rw [settled, damageOf, List.flatMap_map, List.flatMap_eq_nil_iff]
        exact fun i _ => damage_proper i
      have round' := damage_round (items.map Item.mended)
      rw [nothing, List.append_nil, ← kinds'] at round'
      refine ⟨first ++ second, ?_, List.forall_mem_append.mpr ⟨lines, lines'⟩, fun rounds => ?_⟩
      · rw [List.map_append]
        exact (round.trans (round'.append_left _)).symm
      · rw [← map_proper_mended] at accepted
        rw [step, step', inspectFrom_undamaged nothing accepted modeled, Inspection.after, Inspection.after]
        congr 1
        ext1 <;> simp [Findings.ofUses]

end

/-- Repair undoes damage: a selector without quotes and backslashes that is accepted when the blanks around it are taken
off is accepted again after two rounds at most, whatever damage it has, and what is found differs by one repair for each
damage. -/
theorem inspect_damaged (v : Vocabulary) (line : Nat) (found : Findings) {text damaged : List Char}
    {kinds : List RepairKind} {list : List Selector.Complex} (hd : Damaged none text damaged kinds)
    (hu : IsUnquoted text) (accepted : selectors 0 (Text.trim text) = .ok list) (modeled : ∀ c ∈ list, c.IsModeled) :
    ∃ (repairs : List Repair) (uses : List (Nat × Use)),
      (inspect v line (String.ofList text)).after found =
          ⟨⟨found.repairs, found.failures, found.uses ++ uses⟩, none⟩ ∧
        (inspect v line (String.ofList damaged)).after found =
          ⟨⟨found.repairs ++ repairs, found.failures, found.uses ++ uses⟩, none⟩ ∧
        inspectFrom v line (String.ofList damaged) 2 (Text.trim damaged) = inspect v line (String.ofList damaged) ∧
        (∀ r ∈ repairs, r.line = line) ∧ (repairs.map Repair.kind).Perm kinds := by
  obtain ⟨items, sound, trimmed, rfl, same, proper⟩ := damaged_items hd hu accepted
  obtain ⟨uses, modeled⟩ := exists_uses v modeled
  have whole : inspect v line (String.ofList text) = { findings := .ofUses line uses } := by
    rw [inspect, String.toList_ofList]
    exact inspectFrom_accepted accepted modeled repairLimit
  rw [proper] at accepted
  obtain ⟨repairs, perm, lines, rounds⟩ := inspectFrom_items line (String.ofList damaged) sound trimmed accepted modeled
  have mended : inspect v line (String.ofList damaged) =
      { findings := { repairs := repairs, uses := uses.map (line, ·) } } := by
    rw [inspect, String.toList_ofList, same]
    exact rounds 8
  refine ⟨repairs, uses.map (line, ·), ?_, ?_, ?_, lines, perm⟩
  · rw [whole, Inspection.after]
    congr 1
    ext1 <;> simp [Findings.ofUses]
  · rw [mended, Inspection.after]
    congr 1
    ext1 <;> simp
  · rw [mended, same]
    exact rounds 0

/-- Damage inside of a negation that is damaged itself takes the second round. -/
theorem inspect_damaged_negation :
    ∃ (repairs : List Repair) (uses : List (Nat × Use)),
      (inspect ⟨[], [], []⟩ 1 (String.ofList " a:not(:nth-child(0n)),p::before".toList)).after {} =
          ⟨⟨[], [], [] ++ uses⟩, none⟩ ∧
        (inspect ⟨[], [], []⟩ 1 (String.ofList " a::not(::nth-child(0)),p:before".toList)).after {} =
          ⟨⟨[] ++ repairs, [], [] ++ uses⟩, none⟩ ∧
        inspectFrom ⟨[], [], []⟩ 1 (String.ofList " a::not(::nth-child(0)),p:before".toList) 2
            (Text.trim " a::not(::nth-child(0)),p:before".toList) =
          inspect ⟨[], [], []⟩ 1 (String.ofList " a::not(::nth-child(0)),p:before".toList) ∧
        (∀ r ∈ repairs, r.line = 1) ∧ (repairs.map Repair.kind).Perm
          [.pseudoClassConfusion, .pseudoClassConfusion, .ordinality, .pseudoElementConfusion] := by
  have accepted : selectors 0 (Text.trim " a:not(:nth-child(0n)),p::before".toList) =
      .ok [⟨[.element "a", .negation (.position .nthChild ⟨0, 0⟩)], []⟩,
        ⟨[.element "p", .pseudoElement .before], []⟩] := by cbv
  have position : Damaged (some ':') "nth-child(0n)),p::before".toList "nth-child(0)),p:before".toList
      [.ordinality, .pseudoElementConfusion] :=
    @Damaged.zeroed "nth-child".toList _ _ _ (by decide +kernel) (.keep (.keep (.keep (.halved (.same _ _)))))
  refine inspect_damaged ⟨[], [], []⟩ 1 {} ?_ ?_ accepted ?_
  · exact .keep (.keep (.doubled (by decide) (by decide)
      (.keep (.keep (.keep (.keep (.doubled (by decide) (by decide) position)))))))
  · exact isUnquoted_of_all (by decide)
  · exact List.forall_mem_cons.mpr ⟨⟨by decide, by decide⟩, List.forall_mem_cons.mpr ⟨⟨by decide, by decide⟩, by simp⟩⟩

/-- A no-break space is a name of its own, but at the end of a selector it is taken off as a blank. -/
theorem inspect_damaged_blank :
    (∃ list, selectors 0 ":hover.\u00a0".toList = .ok list ∧ ∀ c ∈ list, c.IsModeled) ∧
      IsUnquoted ":hover.\u00a0".toList ∧
        Damaged none ":hover.\u00a0".toList "::hover.\u00a0".toList [.pseudoClassConfusion] ∧
          (inspect ⟨[], [], []⟩ 1 "::hover.\u00a0").findings.failures ≠ [] := by
  have read : selectors 0 ":hover.\u00a0".toList = .ok [⟨[.pseudoClass .hover, .className "\u00a0"], []⟩] := by cbv
  have first : selectors 0 "::hover.".toList = .error ⟨.twoColons "hover", 7⟩ := by cbv
  have second : selectors 0 ":hover.".toList = .error ⟨.noName .className, 7⟩ := by cbv
  refine ⟨⟨_, read, List.forall_mem_cons.mpr ⟨⟨by decide, by decide⟩, by simp⟩⟩, ?_, ?_, ?_⟩
  · exact isUnquoted_of_all (by decide)
  · exact .doubled (by decide) (by decide) (.same _ _)
  · have trimmed : Text.trim "::hover.\u00a0".toList = "::hover.".toList := by decide
    have mended : (repair "::hover.".toList).count = 1 ∧ (repair "::hover.".toList).text = ":hover.".toList := by
      decide +kernel
    have left : (repair ":hover.".toList).count = 0 := by decide +kernel
    rw [inspect, trimmed, repairLimit, inspectFrom.eq_def, if_neg (by decide), first]
    dsimp only
    rw [mended.1, if_neg (by decide), mended.2, inspectFrom.eq_def, if_neg (by decide), second]
    dsimp only
    rw [left, if_pos rfl]
    simp [Inspection.after, giveUp, Findings.failure]

end StyleAudit
