import StyleAudit.Proofs.JoinedLists
import StyleAudit.Proofs.RemovedPseudos
/-!
The words of a selector without quotes and backslashes. Each is read as its compound in front of whatever does not go on
with it, so that words can be taken out of a text and put together anew.
-/
namespace StyleAudit.Selector

open Text (Scan)

/-! How a compound ends. -/

/-- The first characters of the text, that many of them, do not end in white space. -/
def EndsVisibly (text : List Char) (n : Nat) : Prop := ∃ c, (text.take n).getLast? = some c ∧ isSpace c = false

theorem EndsVisibly.one {c : Char} (rest : List Char) (h : isSpace c = false) : EndsVisibly (c :: rest) 1 := ⟨c, rfl, h⟩

theorem EndsVisibly.behind {text : List Char} {n m : Nat} (h : EndsVisibly (text.drop n) m) : EndsVisibly text (n + m) := by
  obtain ⟨c, last, visible⟩ := h
  refine ⟨c, ?_, visible⟩
  rw [List.take_add, List.getLast?_append, last]
  rfl

theorem endsVisibly_name {text : List Char} (some : text.takeWhile isNameChar ≠ []) :
    EndsVisibly text (text.takeWhile isNameChar).length := by
  refine ⟨(text.takeWhile isNameChar).getLast some, ?_, ?_⟩
  · exact (congrArg List.getLast? (takeWhile_eq_take isNameChar text)).trans (List.getLast?_eq_some_getLast some)
  have letter := List.all_eq_true.mp List.all_takeWhile _ (List.getLast_mem some)
  cases space : isSpace ((text.takeWhile isNameChar).getLast some) with
  | false => rfl
  | true =>
      have stops := not_extendsName_of_isSpace space
      rw [extendsName, letter] at stops
      cases stops

theorem attributeEnd_visible {pos : Nat} {text : List Char} {s : Scan Unit} (h : attributeEnd pos text = .ok s) :
    EndsVisibly text s.size := by
  unfold attributeEnd at h
  split at h
  · cases h
  · next c rest =>
      split at h
      · next bracket =>
          obtain rfl := Except.ok.inj h
          exact .one rest (by rw [bracket]; decide)
      · split at h
        · split at h
          · next behind =>
              obtain rfl := Except.ok.inj h
              exact ⟨']', rfl, by decide⟩
          · cases h
        · cases h

theorem attributeSelector_visible {pos : Nat} {text : List Char} {s : Scan Simple}
    (h : attributeSelector pos text = .ok s) : EndsVisibly text s.size := by
  unfold attributeSelector at h
  obtain ⟨name, -, h⟩ := bind_eq_ok h
  obtain ⟨test, tested, h⟩ := bind_eq_ok h
  cases kind : test.value with
  | none =>
      rw [kind] at h
      obtain rfl := Except.ok.inj h
      refine EndsVisibly.behind ?_
      unfold attributeTest at tested
      split at tested
      · cases tested
      · next rest same =>
          obtain rfl := Except.ok.inj tested
          rw [same]
          exact .one rest (by decide)
      · obtain rfl := Except.ok.inj tested
        cases kind
      · split at tested
        · obtain rfl := Except.ok.inj tested
          cases kind
        · cases tested
      · cases tested
  | some sort =>
      rw [kind] at h
      obtain ⟨value, -, h⟩ := bind_eq_ok h
      obtain ⟨ending, ended, h⟩ := bind_eq_ok h
      obtain rfl := Except.ok.inj h
      exact (attributeEnd_visible ended).behind

theorem pseudo_visible {text : List Char} (hu : IsUnquoted text) {pos n : Nat} {simple : Simple}
    (h : pseudo pos text = .ok ⟨.simple simple, n⟩) : EndsVisibly (':' :: text) (1 + n) := by
  obtain ⟨site, reads⟩ := pseudo_simple hu h
  rw [EndsVisibly, reads.taken]
  have some : site.text ≠ [] := by
    intro none
    have first := site.head?_text
    rw [none] at first
    cases first
  refine ⟨_, List.getLast?_eq_some_getLast some, ?_⟩
  exact isSpace_of_not_isBlank (isBlank_spelling (reads.sound.fits _ reads.ends) (List.getLast?_eq_some_getLast some))

theorem negation_visible {text : List Char} (hu : IsUnquoted text) {pos n start size : Nat}
    (h : pseudo pos text = .ok ⟨.negation start size, n⟩) : EndsVisibly (':' :: text) (1 + n) := by
  obtain ⟨word, inner, behind, rfl, -, rfl, rfl, rfl⟩ := pseudo_negation hu h
  have whole : ':' :: (word ++ '(' :: (inner ++ ')' :: behind)) = (':' :: (word ++ '(' :: inner)) ++ ')' :: behind := by simp
  have size : 1 + (word.length + 1 + inner.length + 1) = (':' :: (word ++ '(' :: inner)).length + 1 := by
    simp
    omega
  rw [whole, size]
  refine EndsVisibly.behind ?_
  rw [List.drop_left]
  exact .one behind (by decide)

/-- Simple selectors, if there are any, end visibly. -/
theorem simples_visible {text : List Char} (hu : IsUnquoted text) {pos : Nat} {s : Scan Compound}
    (h : simples pos text = .ok s) : s = ⟨[], 0⟩ ∨ EndsVisibly text s.size := by
  induction length : text.length using Nat.strong_induction_on generalizing text pos s with | _ length ih => ?_
  subst length
  have step : ∀ {c : Char} {rest : List Char} {n : Nat} {simple : Simple} {more : Scan Compound}, text = c :: rest →
      EndsVisibly (c :: rest) (1 + n) → simples (pos + (1 + n)) (rest.drop n) = .ok more →
        EndsVisibly (c :: rest) (more.behind (1 + n) (simple :: ·)).size := by
    rintro c rest n simple more rfl piece tail
    have shorter : (rest.drop n).length < (c :: rest).length := by
      rw [List.length_drop, List.length_cons]
      omega
    rcases ih _ shorter (hu.tail.drop n) tail rfl with rfl | visible
    · exact piece
    · rw [← drop_cons_add c] at visible
      exact visible.behind
  cases simples_form h with
  | stop => exact .inl rfl
  | pseudo read tail => exact .inr (step rfl (pseudo_visible hu.tail read) tail)
  | negation read _ tail => exact .inr (step rfl (negation_visible hu.tail read) tail)
  | className found tail =>
      obtain ⟨some, rfl⟩ := ident_unquoted hu.tail found
      exact .inr (step rfl (EndsVisibly.behind (endsVisibly_name some)) tail)
  | id found tail =>
      obtain ⟨some, rfl⟩ := name_unquoted hu.tail found
      exact .inr (step rfl (EndsVisibly.behind (endsVisibly_name some)) tail)
  | @nesting rest more tail => exact .inr (step (n := 0) rfl (.one rest (by decide)) tail)
  | hasAttribute found tail => exact .inr (step rfl (EndsVisibly.behind (attributeSelector_visible found)) tail)

theorem compound_visible {text : List Char} (hu : IsUnquoted text) {pos : Nat} {s : Scan Compound}
    (h : compound pos text = .ok s) : EndsVisibly text s.size := by
  obtain ⟨start, more, typed, read, some, rfl⟩ := compound_form h
  rcases simples_visible (hu.drop _) read with rfl | visible
  · unfold typeSelector at typed
    split at typed
    · next star =>
        obtain rfl := Except.ok.inj typed
        obtain ⟨rest, rfl⟩ := List.head?_eq_some_iff.mp star
        exact .one rest (by decide)
    · split at typed
      · obtain ⟨name, found, rfl⟩ := map_eq_ok typed
        obtain ⟨letters, rfl⟩ := ident_unquoted hu found
        exact endsVisibly_name letters
      · obtain rfl := Except.ok.inj typed
        exact absurd rfl some
  · exact visible.behind

/-! Texts that need no repair. -/

/-- A text of sound items without damage. -/
def IsUndamaged (text : List Char) : Prop := ∃ items, text = textOf items ∧ AreSound none items ∧ damageOf items = []

theorem IsUndamaged.append {front back : List Char} (h : IsUndamaged front) (h' : IsUndamaged back)
    (apart : StartsBehind back) : IsUndamaged (front ++ back) := by
  obtain ⟨items, rfl, sound, undamaged⟩ := h
  obtain ⟨items', rfl, sound', undamaged'⟩ := h'
  refine ⟨items ++ items', (textOf_append items items').symm, Row.append.mpr ⟨?_, sound'⟩, ?_⟩
  · rw [Option.or_none]
    exact sound.standsBefore apart
  · rw [damageOf_append, undamaged, undamaged']
    rfl

theorem IsUndamaged.behind {piece text : List Char} (h : IsUndamaged text) (plain : ∀ c ∈ piece, isPlain c = true) :
    IsUndamaged (piece ++ text) := by
  obtain ⟨items, rfl, sound, undamaged⟩ := h
  have atoms : ∀ next, AreSound next ((plainAtoms piece).map Item.atom) :=
    fun next => areSound_atoms.mpr (row_plainAtoms plain next)
  refine ⟨(plainAtoms piece).map Item.atom ++ items, ?_, Row.append.mpr ⟨atoms _, sound⟩, ?_⟩
  · rw [textOf_append, textOf_atoms, text_plainAtoms]
  · rw [damageOf_append, damageOf_atoms, damage_plainAtoms, undamaged]
    rfl

theorem isUndamaged_nil : IsUndamaged [] := ⟨[], rfl, trivial, rfl⟩

theorem isUndamaged_plain {piece : List Char} (plain : ∀ c ∈ piece, isPlain c = true) : IsUndamaged piece := by
  have whole := isUndamaged_nil.behind plain
  rwa [List.append_nil] at whole

theorem Between.plain {sign : Combinator} {between : List Char} (h : Between sign between) :
    ∀ c ∈ between, isPlain c = true := by
  cases h with
  | descendant blank _ => exact fun c hc => isPlain_of_isSpace (blank c hc)
  | sign _ hb ha =>
      intro c hc
      rw [List.mem_append, List.mem_append] at hc
      rcases hc with hc | hc | hc
      · exact isPlain_of_isSpace (hb c hc)
      · have signs : ∀ sign : Combinator, sign.sign.toList.all isPlain = true := by
          intro sign
          cases sign <;> rfl
        exact List.all_eq_true.mp (signs _) c hc
      · exact isPlain_of_isSpace (ha c hc)

theorem StopsAt.startsBehind {text : List Char} (h : StopsAt extendsCompound text) : StartsBehind text := by
  refine h.mono fun c hc => ?_
  rcases Bool.or_eq_true_iff.mp hc with letter | opening
  · simp [extendsCompound, extendsSimple, extendsName, isNameChar_of_isWordChar letter]
  · simp [extendsCompound, extendsSimple, opening]

/-! Words. -/

/-- A word that is read as a compound, wherever it stands. -/
structure IsWord (word : List Char) (parts : Compound) : Prop where
  begins : Begins extendsCompound word
  ends : ∀ c, word.getLast? = some c → isSpace c = false
  undamaged : IsUndamaged word
  again : ∀ other, StopsAt extendsCompound other → ∀ pos, compound pos (word ++ other) = .ok ⟨parts, word.length⟩

theorem isWord_of_spells {word rest : List Char} {parts : Compound} (h : Spells word rest parts) (hu : IsUnquoted word) :
    IsWord word parts := by
  have again : ∀ other, StopsAt extendsCompound other → ∀ pos,
      compound pos (word ++ other) = .ok ⟨parts, word.length⟩ :=
    fun other stops => h.again other ⟨stops, fun slash => absurd slash hu.unescaped⟩
  have alone := again [] .nil 0
  rw [List.append_nil] at alone
  refine ⟨h.begins, ?_, ?_, again⟩
  · obtain ⟨c, last, visible⟩ := compound_visible hu alone
    rw [List.take_length] at last
    intro d hd
    obtain rfl := Option.some.inj (last.symm.trans hd)
    exact visible
  · obtain ⟨items, covers⟩ := compound_covered hu alone
    have taken := covers.taken
    have sound := covers.sound
    rw [List.take_length] at taken
    rw [List.drop_length] at sound
    exact ⟨items, taken, sound, covers.undamaged⟩

/-- The words behind the first one, with what joins them. -/
inductive Joined : List (Combinator × Compound) → List Char → Prop
  | none : Joined [] []
  | link {sign : Combinator} {parts : Compound} {links : List (Combinator × Compound)} {between word text : List Char} :
      Between sign between → IsWord word parts → Joined links text →
      Joined ((sign, parts) :: links) (between ++ (word ++ text))

theorem LinksSpelled.joined {behind text : List Char} {links : List (Combinator × Compound)}
    (h : LinksSpelled behind links text) (hu : IsUnquoted text) : Joined links text := by
  induction h with
  | none => exact .none
  | link between spells _ ih =>
      refine .link between (isWord_of_spells spells (hu.mono ?_)) (ih (hu.mono ?_))
      · exact fun c hc => by simp [hc]
      · exact fun c hc => by simp [hc]

namespace Joined

variable {links more : List (Combinator × Compound)} {text behind : List Char}

theorem append (h : Joined links text) (h' : Joined more behind) : Joined (links ++ more) (text ++ behind) := by
  induction h with
  | none => exact h'
  | link between word _ ih =>
      rw [List.append_assoc, List.append_assoc]
      exact .link between word ih

theorem stops (h : Joined links text) (hb : StopsAt extendsCompound behind) : StopsAt extendsCompound (text ++ behind) := by
  cases h with
  | none => exact hb
  | link between _ _ =>
      rw [List.append_assoc]
      exact between.stops _

theorem startsBehind (h : Joined links text) : StartsBehind text := by
  have stops : StopsAt extendsCompound (text ++ []) := h.stops .nil
  rw [List.append_nil] at stops
  exact stops.startsBehind

theorem undamaged (h : Joined links text) : IsUndamaged text := by
  induction h with
  | none => exact isUndamaged_nil
  | link between word tail ih => exact (word.undamaged.append ih tail.startsBehind).behind between.plain

theorem joint_startsBehind (h : Joined links text) {sign : Combinator} (hb : Between sign behind) :
    StartsBehind (text ++ behind) := by
  have ends := hb.stops []
  rw [List.append_nil] at ends
  exact (h.stops ends).startsBehind

/-- Words with a joint behind the last. -/
theorem joint (h : Joined links text) {sign : Combinator} (hb : Between sign behind) : IsUndamaged (text ++ behind) := by
  have ends := hb.stops []
  rw [List.append_nil] at ends
  exact h.undamaged.append (isUndamaged_plain hb.plain) ends.startsBehind

theorem ends (h : Joined links text) : ∀ c, text.getLast? = some c → isSpace c = false := by
  induction h with
  | none => exact fun c hc => by cases hc
  | @link _ _ _ between word text _ isWord _ ih =>
      intro c hc
      have some : word ++ text ≠ [] := by
        obtain ⟨d, rest, rfl, -⟩ := isWord.begins
        simp
      rw [List.getLast?_append_of_ne_nil _ some, List.getLast?_append] at hc
      rcases Option.or_eq_some_iff.mp hc with last | ⟨-, last⟩
      · exact ih c last
      · exact isWord.ends c last

/-- Words are read in front of whatever does not go on with the last of them. -/
theorem read (h : Joined links text) (hb : StopsAt extendsCompound behind) (pos : Nat) :
    Selector.links pos (text ++ behind) =
      (Selector.links (pos + text.length) behind).map (Scan.behind text.length (links ++ ·)) := by
  induction h generalizing pos with
  | none =>
      rw [List.nil_append, List.length_nil, Nat.add_zero]
      cases Selector.links pos behind with
      | error _ => rfl
      | ok s => simp [Except.map, Scan.behind]
  | @link sign parts more between word text hbetween isWord tail ih =>
      have found := isWord.again _ (tail.stops hb) (pos + between.length)
      rw [List.append_assoc, List.append_assoc, links_joined hbetween isWord.begins found, ih]
      have far : pos + (between.length + word.length) + text.length = pos + (between ++ (word ++ text)).length := by
        simp only [List.length_append]
        omega
      rw [far]
      cases Selector.links (pos + (between ++ (word ++ text)).length) behind with
      | error _ => rfl
      | ok s => simp [Except.map, Scan.behind, Nat.add_assoc]

end Joined

/-! Selectors, put together from words. -/

theorem IsWord.stopsAtSpace {word : List Char} {parts : Compound} (h : IsWord word parts) (rest : List Char) :
    StopsAt isSpace (word ++ rest) := by
  obtain ⟨c, more, rfl, extending⟩ := h.begins
  exact .cons (isSpace_of_extendsCompound extending)

section
variable {word text rest : List Char} {first : Compound} {list : List (Combinator × Compound)}

theorem complex_joined (hw : IsWord word first) (h : Joined list text) (hr : StopsAt extendsCompound rest) (pos : Nat) :
    complex pos (word ++ (text ++ rest)) = (links (pos + (word.length + text.length)) rest).map
      (Scan.behind (word.length + text.length) fun more => ⟨first, list ++ more⟩) := by
  rw [complex, hw.again _ (h.stops hr)]
  simp only [List.drop_left]
  rw [h.read hr, Nat.add_assoc]
  cases links (pos + (word.length + text.length)) rest with
  | error _ => rfl
  | ok s => simp [Except.map, Scan.behind, Nat.add_assoc]

theorem selectors_joined (hw : IsWord word first) (h : Joined list text) :
    selectors 0 (word ++ text) = .ok [⟨first, list⟩] := by
  have read : complex 0 (word ++ (text ++ [])) = _ := complex_joined hw h .nil 0
  have done : links (0 + (word.length + text.length)) ([] ++ []) = .ok ⟨[], 0⟩ :=
    links_end .nil (fun c hc => by cases hc) _
  rw [List.append_nil] at read done
  rw [selectors_eq, spaces_none (hw.stopsAtSpace text), List.drop_zero, read, done]
  change selectorsBehind _ 0 ⟨⟨first, list ++ []⟩, word.length + text.length + 0⟩ = _
  rw [selectorsBehind, spaces_none (hw.stopsAtSpace text), List.append_nil, Nat.zero_add, Nat.add_zero,
    ← List.length_append, List.drop_length]

theorem selectors_broken (hw : IsWord word first) (h : Joined list text) (hr : StopsAt extendsCompound rest)
    (broken : ∀ pos, ∃ r, links pos rest = .error r) : ∃ r, selectors 0 (word ++ (text ++ rest)) = .error r := by
  obtain ⟨r, found⟩ := broken (0 + (word.length + text.length))
  refine ⟨r, ?_⟩
  rw [selectors_eq, spaces_none (hw.stopsAtSpace _), List.drop_zero, complex_joined hw h hr, found]
  rfl

end

/-- The words of an accepted text that is one selector, with white space at both ends. -/
theorem words_of_selectors {text : List Char} {c : Complex} (hu : IsUnquoted text) (h : selectors 0 text = .ok [c]) :
    ∃ lead word back trail, text = lead ++ (word ++ (back ++ trail)) ∧ IsBlank lead ∧ IsBlank trail ∧
      IsWord word c.first ∧ Joined c.links back := by
  obtain ⟨lead, text, rfl, hlead, size, -⟩ := spaces_form text
  cases selectors_form h with
  | last found done =>
      rw [size, List.drop_left] at found
      obtain ⟨word, back, trail, rest, rfl, htrail, -, size', spells, spelled⟩ := complex_spelled found
      rw [size, size'] at done
      simp only [← List.drop_drop, List.drop_left] at done
      subst done
      have front : word ⊆ lead ++ (word ++ (back ++ (trail ++ []))) := fun c hc => by simp [hc]
      have behind : back ⊆ lead ++ (word ++ (back ++ (trail ++ []))) := fun c hc => by simp [hc]
      exact ⟨lead, word, back, trail, by simp, hlead, htrail, isWord_of_spells spells (hu.mono front),
        spelled.joined (hu.mono behind)⟩
  | more _ _ tail => cases selectors_form tail

end StyleAudit.Selector
