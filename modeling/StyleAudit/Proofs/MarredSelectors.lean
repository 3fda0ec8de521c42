import StyleAudit.Proofs.FoundPseudos
import StyleAudit.Proofs.RepairedDamage
/-!
Marred selectors. Arguments of negations stand in quotes, and classes or ids where positions were. A marred selector is
the items of the selector, some of them with another argument.
-/
namespace StyleAudit.Selector

/-- A class or an id in place of a position, its name written without escapes. -/
def IsReference (argument : List Char) : Prop :=
  ∃ mark name, argument = mark :: name ∧ (mark = '.' ∨ mark = '#') ∧ name ≠ [] ∧ ∀ c ∈ name, isNameChar c = true

/-- A selector and what it is with some arguments marred: the quotes that were put around arguments of negations, and the
rest of the selector behind each position that was replaced. -/
inductive Marred : List Char → List Char → List Char → List (List Char) → Prop
  | done : Marred [] [] [] []
  | keep {c : Char} {rest out quotes : List Char} {backs : List (List Char)} : Marred rest out quotes backs →
      Marred (c :: rest) (c :: out) quotes backs
  | quoted {word inner rest out quotes : List Char} {quote : Char} {backs : List (List Char)} : lower word = "not" →
      IsClosed inner → (quote = '"' ∨ quote = '\'') → Marred rest out quotes backs →
      Marred (spelling .one word (some inner) ++ rest) (spelling .one word (some (quote :: (inner ++ [quote]))) ++ out)
        (quote :: quotes) backs
  | swapped {word argument rest out quotes : List Char} {backs : List (List Char)} : lower word ∈ positionNames →
      IsReference argument → Marred rest out quotes backs →
      Marred (spelling .one word (some "0n".toList) ++ rest) (spelling .one word (some argument) ++ out) quotes
        (rest :: backs)

/-- An item of a selector, or a pseudo of it with its argument marred. -/
inductive Piece where
  | item (i : Item)
  | quoted (word : List Char) (inner : List Atom) (quote : Char)
  | swapped (word argument : List Char)

namespace Piece

def text : Piece → List Char
  | item i => i.text
  | quoted word inner quote => spelling .one word (some (quote :: (inner.flatMap Atom.text ++ [quote])))
  | swapped word argument => spelling .one word (some argument)

/-- The item that was marred. -/
def meant : Piece → Item
  | item i => i
  | quoted word inner _ => .negation word inner false
  | swapped word _ => .atom (.site ⟨word, some "0n".toList, false, false⟩)

def quotes : Piece → List Char
  | quoted _ _ quote => [quote]
  | _ => []

def isSwapped : Piece → Bool
  | swapped _ _ => true
  | _ => false

def IsMarred : Piece → Prop
  | item _ => True
  | quoted _ _ quote => quote = '"' ∨ quote = '\''
  | swapped word argument => lower word ∈ positionNames ∧ IsReference argument

end Piece

/-- The text of pieces. -/
def markedText (pieces : List Piece) : List Char := pieces.flatMap Piece.text

/-- The selector that was marred. -/
def meantText (pieces : List Piece) : List Char := textOf (pieces.map Piece.meant)

/-- What was meant behind each position that was replaced, in front of some text. -/
def backsOf (behind : List Char) : List Piece → List (List Char)
  | [] => []
  | p :: pieces => (if p.isSwapped then [meantText pieces ++ behind] else []) ++ backsOf behind pieces

theorem markedText_cons (p : Piece) (pieces : List Piece) : markedText (p :: pieces) = p.text ++ markedText pieces :=
  List.flatMap_cons

theorem meantText_cons (p : Piece) (pieces : List Piece) : meantText (p :: pieces) = p.meant.text ++ meantText pieces :=
  List.flatMap_cons

/-! Through a selector. -/

theorem known_position {name : String} (h : name ∈ positionNames) :
    name ∈ "not" :: (elementNames ++ classNames ++ functionNames) :=
  List.mem_cons_of_mem _ (List.mem_append_right _ (List.mem_cons_of_mem _ h))

section
variable {rest out quotes : List Char} {backs : List (List Char)}

theorem Marred.nil (h : Marred [] out quotes backs) : out = [] ∧ quotes = [] ∧ backs = [] := by
  generalize same : ([] : List Char) = text at h
  cases h with
  | done => exact ⟨rfl, rfl, rfl⟩
  | _ => cases same

theorem Marred.plain {front : List Char} (hf : ∀ c ∈ front, c ≠ ':') (h : Marred (front ++ rest) out quotes backs) :
    ∃ behind, out = front ++ behind ∧ Marred rest behind quotes backs := by
  induction front generalizing out with
  | nil => exact ⟨out, rfl, h⟩
  | cons c front ih =>
      have other := hf c List.mem_cons_self
      generalize same : c :: front ++ rest = text at h
      rw [List.cons_append] at same
      cases h with
      | done => cases same
      | keep h =>
          obtain ⟨rfl, rfl⟩ := List.cons.inj same
          obtain ⟨behind, rfl, on⟩ := ih (fun d hd => hf d (List.mem_cons_of_mem c hd)) h
          exact ⟨behind, rfl, on⟩
      | quoted => exact absurd (List.cons.inj same).1 other
      | swapped => exact absurd (List.cons.inj same).1 other

/-- The first of two colons is kept. -/
theorem Marred.colon (h : Marred (':' :: ':' :: rest) out quotes backs) :
    ∃ behind, out = ':' :: behind ∧ Marred (':' :: rest) behind quotes backs := by
  -- a name stands behind the colon of what is marred
  have other {word tail : List Char} {argument : Option (List Char)}
      (known : lower word ∈ "not" :: (elementNames ++ classNames ++ functionNames))
      (same : ':' :: ':' :: rest = spelling .one word argument ++ tail) : False := by
    obtain ⟨visible, letters⟩ := word_of_lower known
    obtain ⟨c, word, rfl⟩ := List.exists_cons_of_ne_nil visible
    obtain rfl : ':' = c := (List.cons.inj (List.cons.inj same).2).1
    exact absurd (letters _ List.mem_cons_self) (by decide)
  generalize same : ':' :: ':' :: rest = text at h
  cases h with
  | done => cases same
  | keep h =>
      obtain ⟨rfl, rfl⟩ := List.cons.inj same
      exact ⟨_, rfl, h⟩
  | quoted name => exact (other (by rw [name]; exact List.mem_cons_self) same).elim
  | swapped name => exact (other (known_position name) same).elim

/-- A pseudo with one colon: its argument is kept, or put in quotes, or replaced. -/
theorem Marred.pseudo {word : List Char} {argument : Option (List Char)} (hf : Fits word argument rest)
    (h : Marred (spelling .one word argument ++ rest) out quotes backs) :
    (∃ behind, out = ':' :: (word ++ behind) ∧ Marred (argumentText argument ++ rest) behind quotes backs) ∨
      (∃ inner quote behind more, argument = some inner ∧ lower word = "not" ∧ (quote = '"' ∨ quote = '\'') ∧
        out = spelling .one word (some (quote :: (inner ++ [quote]))) ++ behind ∧ quotes = quote :: more ∧
          Marred rest behind more backs) ∨
      ∃ reference behind more, argument = some "0n".toList ∧ lower word ∈ positionNames ∧ IsReference reference ∧
        out = spelling .one word (some reference) ++ behind ∧ backs = rest :: more ∧ Marred rest behind quotes more := by
  -- what is marred begins with the same name and ends with the same parenthesis
  have unique {name inner behind : List Char} (letters : ∀ c ∈ name, isWordChar c = true) (closed : IsClosed inner)
      (same : ':' :: (word ++ (argumentText argument ++ rest)) = spelling .one name (some inner) ++ behind) :
      word = name ∧ argument = some inner ∧ rest = behind := by
    have tail : word ++ (argumentText argument ++ rest) = name ++ (argumentText (some inner) ++ behind) := by
      simpa [spelling, Colons.text] using same
    obtain ⟨rfl, behind⟩ := word_unique hf.word letters hf.tail.1 (.cons (by decide)) tail
    exact ⟨rfl, closed_unique hf closed behind⟩
  have written : spelling .one word argument ++ rest = ':' :: (word ++ (argumentText argument ++ rest)) := by
    simp [spelling, Colons.text]
  rw [written] at h
  generalize same : ':' :: (word ++ (argumentText argument ++ rest)) = text at h
  cases h with
  | done => cases same
  | keep h =>
      obtain ⟨rfl, rfl⟩ := List.cons.inj same
      obtain ⟨behind, rfl, on⟩ := h.plain hf.no_colon
      exact .inl ⟨behind, rfl, on⟩
  | quoted name closed quoted h =>
      obtain ⟨rfl, rfl, rfl⟩ := unique (word_of_lower (by rw [name]; exact List.mem_cons_self)).2 closed same
      exact .inr (.inl ⟨_, _, _, _, rfl, name, quoted, rfl, rfl, h⟩)
  | swapped name reference h =>
      obtain ⟨rfl, rfl, rfl⟩ := unique (word_of_lower (known_position name)).2 isClosed_zero same
      exact .inr (.inr ⟨_, _, _, rfl, name, reference, rfl, rfl, h⟩)

/-- A site is kept, or it is a position that is replaced. -/
theorem Marred.site {s : Site} (hs : s.IsSound) (he : s.EndsBefore rest.head?) (hu : s.damage = [])
    (h : Marred (s.text ++ rest) out quotes backs) :
    (∃ behind, out = s.text ++ behind ∧ Marred rest behind quotes backs) ∨
      ∃ word reference behind more, s = ⟨word, some "0n".toList, false, false⟩ ∧ lower word ∈ positionNames ∧
        IsReference reference ∧ out = spelling .one word (some reference) ++ behind ∧ backs = rest :: more ∧
          Marred rest behind quotes more := by
  have proper := Site.proper_of_damage hu
  have counted : s.miscounted = false := by rw [← proper]; rfl
  have nonzero : s.zeroed = false := by rw [← proper]; rfl
  have shown : s.shown = s.argument := by rw [Site.shown, nonzero, if_neg Bool.false_ne_true]
  have fits := hs.fits rest he
  have no_colon := Mending.no_colon_argument hs
  have colons : s.colons = if s.isElement then .two else .one := by
    unfold Site.colons
    rw [counted]
    cases s.isElement <;> rfl
  rw [Site.text] at h ⊢
  cases element : s.isElement with
  | false =>
      rw [element, if_neg Bool.false_ne_true] at colons
      rw [colons] at h ⊢
      rcases h.pseudo fits with ⟨behind, rfl, on⟩ | ⟨inner, quote, behind, more, some, name, -⟩ |
        ⟨reference, behind, more, some, name, swap, rfl, rfl, on⟩
      · obtain ⟨behind, rfl, after⟩ := on.plain no_colon
        exact .inl ⟨behind, by simp [spelling, Colons.text], after⟩
      · have function := hs.function inner (by rw [← shown, some])
        rw [name] at function
        exact absurd function (by decide +kernel)
      · refine .inr ⟨s.word, reference, behind, more, ?_, name, swap, rfl, rfl, on⟩
        obtain ⟨word, argument, miscounted, zeroed⟩ := s
        obtain rfl : miscounted = false := counted
        obtain rfl : zeroed = false := nonzero
        obtain rfl : argument = .some _ := shown.symm.trans some
        rfl
  | true =>
      rw [element, if_pos rfl] at colons
      have none : s.shown = none := by
        rw [shown, ← Option.isNone_iff_eq_none]
        exact (Bool.and_eq_true_iff.mp element).1
      rw [colons, none] at h ⊢
      rw [none] at fits
      obtain ⟨behind, rfl, on⟩ := Marred.colon h
      have single : Marred (spelling .one s.word .none ++ rest) behind quotes backs := on
      rcases single.pseudo fits with ⟨behind, rfl, after⟩ | ⟨_, _, _, _, some, -⟩ | ⟨_, _, _, some, -⟩
      · rw [argumentText] at after
        exact .inl ⟨behind, by simp [spelling, Colons.text, argumentText], after⟩
      · cases some
      · cases some

theorem Marred.atom {a : Atom} (ha : a.Stands rest.head?) (hu : a.damage = []) (h : Marred (a.text ++ rest) out quotes backs) :
    (∃ behind, out = a.text ++ behind ∧ Marred rest behind quotes backs) ∨
      ∃ word reference behind more, a = .site ⟨word, some "0n".toList, false, false⟩ ∧ lower word ∈ positionNames ∧
        IsReference reference ∧ out = spelling .one word (some reference) ++ behind ∧ backs = rest :: more ∧
          Marred rest behind quotes more := by
  cases a with
  | char c =>
      have other : ∀ d ∈ [c], d ≠ ':' := by
        intro d hd
        rw [List.mem_singleton.mp hd, Ne, char_eq_iff]
        exact (isPlain_iff.mp ha).1
      obtain ⟨behind, rfl, on⟩ := h.plain other
      exact .inl ⟨behind, rfl, on⟩
  | site s =>
      rcases h.site ha.1 ha.2 hu with kept | ⟨word, reference, behind, more, rfl, swapped⟩
      · exact .inl kept
      · exact .inr ⟨word, reference, behind, more, rfl, swapped⟩

/-- In front of a closing parenthesis no position is replaced, if each that is replaced is the last argument. -/
theorem Marred.atoms {atoms : List Atom} (ha : Row Atom.text Atom.Stands rest.head? atoms)
    (hu : atoms.flatMap Atom.damage = []) (last : ∀ back ∈ backs, ')' ∉ back) (closing : ')' ∈ rest)
    (h : Marred (atoms.flatMap Atom.text ++ rest) out quotes backs) :
    ∃ behind, out = atoms.flatMap Atom.text ++ behind ∧ Marred rest behind quotes backs := by
  induction atoms generalizing out with
  | nil => exact ⟨out, rfl, h⟩
  | cons a atoms ih =>
      have first := ha.1
      rw [← List.head?_append] at first
      rw [List.flatMap_cons, List.append_eq_nil_iff] at hu
      rw [List.flatMap_cons, List.append_assoc] at h
      rcases h.atom first hu.1 with ⟨behind, rfl, on⟩ | ⟨_, _, _, _, -, -, -, -, rfl, -⟩
      · obtain ⟨behind, rfl, after⟩ := ih ha.2 hu.2 on
        exact ⟨behind, by rw [List.flatMap_cons, List.append_assoc], after⟩
      · exact absurd (List.mem_append_right _ closing) (last _ List.mem_cons_self)

/-- An item that is marred is one piece. -/
theorem Marred.item {i : Item} (hi : i.Stands rest.head?) (hu : i.damage = []) (last : ∀ back ∈ backs, ')' ∉ back)
    (h : Marred (i.text ++ rest) out quotes backs) :
    ∃ (p : Piece) (behind more : List Char) (others : List (List Char)), p.meant = i ∧ p.IsMarred ∧ out = p.text ++ behind ∧
      quotes = p.quotes ++ more ∧ backs = (if p.isSwapped then [rest] else []) ++ others ∧ Marred rest behind more others := by
  cases i with
  | atom a =>
      rcases h.atom hi hu with ⟨behind, rfl, on⟩ | ⟨word, reference, behind, more, rfl, name, swap, rfl, rfl, on⟩
      · exact ⟨.item (.atom a), behind, quotes, backs, rfl, trivial, rfl, rfl, rfl, on⟩
      · exact ⟨.swapped word reference, behind, quotes, more, rfl, ⟨name, swap⟩, rfl, rfl, rfl, on⟩
  | negation word inner miscounted =>
      obtain ⟨colons, inside⟩ := List.append_eq_nil_iff.mp hu
      obtain rfl : miscounted = false := by
        cases miscounted with
        | false => rfl
        | true => cases colons
      rcases Marred.pseudo (Item.negation_fits hi rest) h with ⟨behind, rfl, on⟩ |
        ⟨_, quote, behind, more, some, -, quoted, rfl, rfl, on⟩ | ⟨_, _, _, -, name, -⟩
      · have argument : argumentText (some (inner.flatMap Atom.text)) ++ rest =
            ['('] ++ (inner.flatMap Atom.text ++ ([')'] ++ rest)) := by simp [argumentText]
        rw [argument] at on
        obtain ⟨behind, rfl, opened⟩ := on.plain (no_colon_mark (by decide))
        have row : Row Atom.text Atom.Stands ([')'] ++ rest).head? inner := hi.2.2
        obtain ⟨behind, rfl, held⟩ := opened.atoms row inside last List.mem_cons_self
        obtain ⟨behind, rfl, after⟩ := held.plain (no_colon_mark (by decide))
        refine ⟨.item (.negation word inner false), behind, quotes, backs, rfl, trivial, ?_, rfl, rfl, after⟩
        simp [Piece.text, Item.text, Item.negationColons, spelling, Colons.text, argumentText]
      · obtain rfl := Option.some.inj some
        exact ⟨.quoted word inner quote, behind, more, backs, rfl, quoted, rfl, rfl, rfl, on⟩
      · rw [hi.1] at name
        exact absurd name (by decide +kernel)

theorem Marred.items {items : List Item} (hi : AreSound rest.head? items) (hu : damageOf items = [])
    (last : ∀ back ∈ backs, ')' ∉ back) (h : Marred (textOf items ++ rest) out quotes backs) :
    ∃ (pieces : List Piece) (behind more : List Char) (others : List (List Char)), pieces.map Piece.meant = items ∧
      (∀ p ∈ pieces, p.IsMarred) ∧ out = markedText pieces ++ behind ∧ quotes = pieces.flatMap Piece.quotes ++ more ∧
        backs = backsOf rest pieces ++ others ∧ Marred rest behind more others := by
  induction items generalizing out quotes backs with
  | nil => exact ⟨[], out, quotes, backs, rfl, by simp, rfl, rfl, rfl, h⟩
  | cons i items ih =>
      have first : i.Stands ((textOf items).head?.or rest.head?) := hi.1
      rw [← List.head?_append] at first
      rw [damageOf_cons, List.append_eq_nil_iff] at hu
      rw [textOf_cons, List.append_assoc] at h
      obtain ⟨p, behind, more, others, rfl, marred, rfl, rfl, rfl, on⟩ := h.item first hu.1 last
      obtain ⟨pieces, behind, more, others, rfl, all, rfl, rfl, rfl, after⟩ :=
        ih hi.2 hu.2 (fun back mem => last back (List.mem_append_right _ mem)) on
      refine ⟨p :: pieces, behind, more, others, rfl, List.forall_mem_cons.mpr ⟨marred, all⟩, ?_, ?_, ?_, after⟩
      · rw [markedText_cons, List.append_assoc]
      · rw [List.flatMap_cons, List.append_assoc]
      · rw [backsOf, List.append_assoc]
        rfl

end

/-! Pieces of a selector that is accepted. -/

/-- Pieces whose items are sound and undamaged. -/
structure AreMarred (pieces : List Piece) : Prop where
  sound : AreSound none (pieces.map Piece.meant)
  undamaged : damageOf (pieces.map Piece.meant) = []
  marred : ∀ p ∈ pieces, p.IsMarred

section
variable {pieces front back : List Piece}

theorem Piece.text_ends (p : Piece) :
    p.text ≠ [] ∧ p.text.head? = p.meant.text.head? ∧ p.text.getLast? = p.meant.text.getLast? := by
  have pseudo (word argument : List Char) : spelling .one word (some argument) ≠ [] ∧
      (spelling .one word (some argument)).head? = some ':' ∧ (spelling .one word (some argument)).getLast? = some ')' := by
    refine ⟨List.cons_ne_nil _ _, rfl, ?_⟩
    rw [spelling, argumentText, ← List.append_assoc, ← List.cons_append, ← List.append_assoc, List.getLast?_concat]
  cases p with
  | item i => exact ⟨i.text_visible, rfl, rfl⟩
  | quoted word inner quote =>
      obtain ⟨visible, first, last⟩ := pseudo word (quote :: (inner.flatMap Atom.text ++ [quote]))
      obtain ⟨-, first', last'⟩ := pseudo word (inner.flatMap Atom.text)
      exact ⟨visible, first.trans first'.symm, last.trans last'.symm⟩
  | swapped word argument =>
      obtain ⟨visible, first, last⟩ := pseudo word argument
      obtain ⟨-, first', last'⟩ := pseudo word "0n".toList
      exact ⟨visible, first.trans first'.symm, last.trans last'.symm⟩

theorem head?_marked (pieces : List Piece) : (markedText pieces).head? = (meantText pieces).head? := by
  cases pieces with
  | nil => rfl
  | cons p pieces =>
      obtain ⟨visible, first, -⟩ := p.text_ends
      rw [markedText_cons, meantText_cons, List.head?_append_of_ne_nil _ visible,
        List.head?_append_of_ne_nil _ p.meant.text_visible, first]

theorem getLast?_marked (pieces : List Piece) : (markedText pieces).getLast? = (meantText pieces).getLast? := by
  induction pieces with
  | nil => rfl
  | cons p pieces ih =>
      rw [markedText_cons, meantText_cons, List.getLast?_append, List.getLast?_append, ih, p.text_ends.2.2]

theorem trim_marked (h : Text.trim (meantText pieces) = meantText pieces) :
    Text.trim (markedText pieces) = markedText pieces := by
  obtain ⟨first, last⟩ := Text.trim_ends (meantText pieces)
  rw [h] at first last
  refine Text.trim_eq_self ?_ ?_
  · rwa [head?_marked]
  · rwa [getLast?_marked]

/-- A marred selector, without the blanks around it, is marred pieces of the selector. -/
theorem marred_pieces {text damaged quotes : List Char} {backs : List (List Char)} {list : List Complex}
    (hd : Marred text damaged quotes backs) (last : ∀ back ∈ backs, ')' ∉ back) (hu : IsUnquoted text)
    (accepted : selectors 0 (Text.trim text) = .ok list) :
    ∃ pieces behind, AreMarred pieces ∧ quotes = pieces.flatMap Piece.quotes ∧ backs = backsOf behind pieces ∧
      Text.trim damaged = markedText pieces ∧ Text.trim text = meantText pieces := by
  obtain ⟨before, behind, parts, blank, blank'⟩ := Text.trim_parts text
  have inside : IsUnquoted (Text.trim text) := hu.mono fun c hc => by rw [parts]; simp [hc]
  obtain ⟨items, same, sound, undamaged⟩ := accepted_items inside accepted
  rw [parts, same] at hd
  obtain ⟨out, rfl, core⟩ := hd.plain (no_colon_blank blank)
  have sound' : AreSound behind.head? items :=
    sound.before fun _ _ hi => hi.before fun c hc => ends_blank (blank' c (List.mem_of_mem_head? hc))
  obtain ⟨pieces, out, more, others, rfl, marred, rfl, rfl, rfl, rest⟩ := core.items sound' undamaged last
  rw [← List.append_nil behind] at rest
  obtain ⟨out, rfl, nothing⟩ := rest.plain (no_colon_blank blank')
  obtain ⟨rfl, rfl, rfl⟩ := nothing.nil
  have trimmed : Text.trim (meantText pieces) = meantText pieces := by
    have twice := Text.trim_trim text
    rwa [same] at twice
  refine ⟨pieces, behind, ⟨sound, undamaged, marred⟩, ?_, ?_, ?_, same⟩
  · rw [List.append_nil]
  · rw [List.append_nil]
  · rw [List.append_nil]
    exact Text.trim_append blank blank' (trim_marked trimmed)

end
end StyleAudit.Selector
