import StyleAudit.Proofs.LoneCompounds
/-!
White space behind a text. A text without quotes and parentheses is read in the same way with white space behind it,
unless it ends in a backslash, for which the white space would be there. Digits of an escape at the end of the text take
one character of the white space with them, so what is read need not be as long; but it is the same, and again only white
space is left.
-/
namespace StyleAudit.Selector

open Text (Scan isHexDigit)

/-! Texts with white space behind them. -/

/-- Whether a text ends in a backslash with no character behind it. -/
def endsInEscape : List Char → Bool
  | [] => false
  | ['\\'] => true
  | '\\' :: _ :: rest => endsInEscape rest
  | _ :: rest => endsInEscape rest

/-- A text without quotes and parentheses that does not end in an escape. -/
structure IsWhole (text : List Char) : Prop where
  plain : ∀ c ∈ text, isArgumentChar c = true
  ended : endsInEscape text = false

inductive Padded (text : List Char) : List Char → Prop
  | behind {blank : List Char} : IsWhole text → IsBlank blank → Padded text (text ++ blank)

theorem endsInEscape_cons {c : Char} (h : c ≠ '\\') (rest : List Char) :
    endsInEscape (c :: rest) = endsInEscape rest := by
  cases rest <;> simp [endsInEscape, h]

theorem endsInEscape_append {front : List Char} (h : ∀ c ∈ front, c ≠ '\\') (rest : List Char) :
    endsInEscape (front ++ rest) = endsInEscape rest := by
  induction front with
  | nil => rfl
  | cons c front ih =>
      obtain ⟨first, later⟩ := List.forall_mem_cons.mp h
      rw [List.cons_append, endsInEscape_cons first, ih later]

theorem not_slash_of_isSpace {c : Char} (h : isSpace c = true) : c ≠ '\\' := by
  rintro rfl
  cases h

theorem not_slash_of_isHexDigit {c : Char} (h : isHexDigit c = true) : c ≠ '\\' := by
  rintro rfl
  cases h

theorem not_slash_of_isNameChar {c : Char} (h : isNameChar c = true) : c ≠ '\\' := by
  rintro rfl
  cases h

theorem IsBlank.ended {blank : List Char} (h : IsBlank blank) : endsInEscape blank = false := by
  have ended := endsInEscape_append (fun c hc => not_slash_of_isSpace (h c hc)) []
  rwa [List.append_nil] at ended

theorem IsWhole.behind {front rest : List Char} (h : IsWhole (front ++ rest))
    (same : endsInEscape (front ++ rest) = endsInEscape rest) : IsWhole rest :=
  ⟨fun c hc => h.plain c (List.mem_append_right front hc), same ▸ h.ended⟩

theorem IsWhole.tail {c : Char} {rest : List Char} (h : IsWhole (c :: rest)) (mark : c ≠ '\\') : IsWhole rest :=
  @IsWhole.behind [c] rest h (endsInEscape_cons mark rest)

theorem IsWhole.nil : IsWhole [] := ⟨by simp, rfl⟩

namespace Padded

variable {text padded : List Char}

theorem whole (h : Padded text padded) : IsWhole text := by
  cases h with
  | behind whole _ => exact whole

theorem blank_iff (h : Padded text padded) : IsBlank text ↔ IsBlank padded := by
  cases h with
  | behind _ blank => exact ⟨fun h => List.forall_mem_append.mpr ⟨h, blank⟩, fun h => (List.forall_mem_append.mp h).1⟩

/-- The white space in front is the same, or all there is. -/
theorem spaces (h : Padded text padded) :
    Padded (text.drop (Selector.spaces text)) (padded.drop (Selector.spaces padded)) := by
  cases h with
  | @behind blank whole hb =>
      obtain ⟨gap, rest, rfl, hgap, size, stops⟩ := spaces_form text
      rw [size, List.drop_left]
      have mark : ∀ c ∈ gap, c ≠ '\\' := fun c hc => not_slash_of_isSpace (hgap c hc)
      have behind := whole.behind (endsInEscape_append mark rest)
      cases rest with
      | nil =>
          have all : IsBlank (gap ++ blank ++ []) := by
            rw [List.append_nil]
            exact List.forall_mem_append.mpr ⟨hgap, hb⟩
          rw [List.append_nil, ← List.append_nil (gap ++ blank), spaces_append (by simpa using all) .nil]
          rw [List.drop_left]
          exact .behind .nil .nil
      | cons c rest =>
          have first : StopsAt isSpace (c :: rest ++ blank) := .cons (stops c rfl)
          rw [List.append_assoc, spaces_append hgap first, List.drop_left]
          exact .behind behind hb

end Padded

/-! Agreement. -/

/-- A reading of a text and one of the padded text that both fail, or give the same and leave a text and the same text
padded. -/
inductive Agree {α : Type} (text padded : List Char) : Except Rejection (Scan α) → Except Rejection (Scan α) → Prop
  | failed {r r' : Rejection} : Agree text padded (.error r) (.error r')
  | read {value : α} {n m : Nat} : Padded (text.drop n) (padded.drop m) →
      Agree text padded (.ok ⟨value, n⟩) (.ok ⟨value, m⟩)

namespace Agree

variable {α β : Type} {text padded : List Char} {n m : Nat} {x y : Except Rejection (Scan α)}

theorem bind {front front' : List Char} (h : Agree front front' x y) {f g : Scan α → Except Rejection (Scan β)}
    (next : ∀ value i j, Padded (front.drop i) (front'.drop j) → Agree text padded (f ⟨value, i⟩) (g ⟨value, j⟩)) :
    Agree text padded (x >>= f) (y >>= g) := by
  cases h with
  | failed => exact .failed
  | read behind => exact next _ _ _ behind

theorem behind (h : Agree (text.drop n) (padded.drop m) x y) (f : α → β) :
    Agree text padded (x.map (Scan.behind n f)) (y.map (Scan.behind m f)) := by
  cases h with
  | failed => exact .failed
  | read behind =>
      rw [List.drop_drop, List.drop_drop] at behind
      exact .read behind

theorem map (h : Agree text padded x y) (f : α → β) : Agree text padded (x.map (Scan.map f)) (y.map (Scan.map f)) := by
  cases h with
  | failed => exact .failed
  | read behind => exact .read behind

/-- Readings that do not look at what is behind so many characters. -/
theorem sized (behind : Padded (text.drop n) (padded.drop m)) {x y : Except Rejection α} (same : x.toOption = y.toOption) :
    Agree text padded (x.map (⟨·, n⟩)) (y.map (⟨·, m⟩)) := by
  cases x with
  | error r =>
      cases y with
      | error r' => exact .failed
      | ok b => cases same
  | ok a =>
      cases y with
      | error r' => cases same
      | ok b =>
          obtain rfl := Option.some.inj same
          exact .read behind

end Agree

/-! Escapes and names. -/

theorem EscapeForm.ended {c : Char} {piece rest : List Char} (h : EscapeForm c piece rest) :
    endsInEscape ('\\' :: (piece ++ rest)) = endsInEscape rest := by
  -- the first character goes with the backslash
  have digits : ∀ {piece : List Char}, piece ≠ [] → (∀ c ∈ piece, c ≠ '\\') →
      endsInEscape ('\\' :: (piece ++ rest)) = endsInEscape rest := by
    intro piece some mark
    obtain ⟨d, more, rfl⟩ := List.exists_cons_of_ne_nil some
    rw [List.cons_append, endsInEscape, endsInEscape_append fun c hc => mark c (List.mem_cons_of_mem d hc)]
  cases h with
  | plain => rw [List.singleton_append, endsInEscape]
  | spaced some all _ blank =>
      refine digits (by simp) (List.forall_mem_append.mpr ⟨fun c hc => not_slash_of_isHexDigit (all c hc), ?_⟩)
      exact List.forall_mem_singleton.mpr (not_slash_of_isSpace blank)
  | digits some all => exact digits some fun c hc => not_slash_of_isHexDigit (all c hc)

theorem NameForm.ended {value front rest : List Char} (h : NameForm value front rest) :
    endsInEscape (front ++ rest) = endsInEscape rest := by
  induction h with
  | stop => rfl
  | char letter _ ih => rw [List.cons_append, endsInEscape_cons (not_slash_of_isNameChar letter), ih]
  | escape _ piece _ ih => rw [List.cons_append, List.append_assoc, piece.ended, ih]

theorem startsEscape_other {c : Char} (h : c ≠ '\\') (rest : List Char) : startsEscape (c :: rest) = false := by
  rw [Bool.eq_false_iff]
  exact fun escape => h (startsEscape_cons escape).1

section

variable {blank : List Char} (hb : IsBlank blank)
include hb

theorem IsBlank.stopsName : StopsAt extendsName blank := by
  have stops := hb.stopsAt (fun _ => not_extendsName_of_isSpace) .nil
  rwa [List.append_nil] at stops

theorem startsEscape_padded {text : List Char} (ended : endsInEscape text = false) :
    startsEscape (text ++ blank) = startsEscape text := by
  match text with
  | [] => exact startsEscape_of_stops hb.stopsName
  | [c] =>
      have mark : c ≠ '\\' := by
        rintro rfl
        cases ended
      rw [startsEscape_other mark, List.singleton_append, startsEscape_other mark]
  | c :: d :: rest =>
      by_cases slash : c = '\\'
      · subst slash
        rfl
      · rw [startsEscape_other slash, List.cons_append, startsEscape_other slash]

theorem startsIdent_padded {text : List Char} (ended : endsInEscape text = false) :
    startsIdent (text ++ blank) = startsIdent text := by
  cases text with
  | nil => exact startsIdent_of_stops hb.stopsName
  | cons c rest =>
      have escape := startsEscape_padded hb ended
      rw [List.cons_append] at escape ⊢
      rw [startsIdent.eq_def, startsIdent.eq_def]
      dsimp only
      rw [escape]
      by_cases dash : c = '-'
      · rw [endsInEscape_cons (by rw [dash]; decide)] at ended
        rw [if_pos dash, if_pos dash, startsEscape_padded hb ended]
        cases rest with
        | cons d rest => rfl
        | nil =>
            cases blank with
            | nil => rfl
            | cons d blank =>
                have stops := hb.stopsName d rfl
                simp only [extendsName, isNameChar, Bool.or_eq_false_iff] at stops
                simp [stops]
      · rw [if_neg dash, if_neg dash]

/-- A name in front of white space: only an escape in digits at the end of the text goes on, by one character. -/
theorem NameForm.padded {value front rest : List Char} (h : NameForm value front rest)
    (ended : endsInEscape rest = false) :
    ∃ gap behind, blank = gap ++ behind ∧ (rest ≠ [] → gap = []) ∧ NameForm value (front ++ gap) (rest ++ behind) := by
  induction h with
  | @stop rest stops escape =>
      refine ⟨[], blank, rfl, fun _ => rfl, .stop ?_ (by rw [startsEscape_padded hb ended, escape])⟩
      cases rest with
      | nil => exact hb.stopsName.mono fun c hc => by simp [extendsName, hc]
      | cons c rest => exact .cons (stops c rfl)
  | char letter _ ih =>
      obtain ⟨gap, behind, same, goesOn, form⟩ := ih ended
      exact ⟨gap, behind, same, goesOn, .char letter form⟩
  | @escape c value piece front rest starts piece_form more ih =>
      obtain ⟨gap, behind, same, goesOn, form⟩ := ih ended
      by_cases last : front ++ rest = []
      · obtain ⟨rfl, rfl⟩ := List.append_eq_nil_iff.mp last
        obtain rfl : value = [] := by
          cases more with
          | stop => rfl
        have stops : ∀ {rest : List Char}, IsBlank rest → NameForm [] [] rest := fun blank =>
          .stop (blank.stopsName.mono fun c hc => by simp [extendsName, hc]) (startsEscape_of_stops blank.stopsName)
        have alone : ∀ {gap rest : List Char}, EscapeForm c (piece ++ gap) rest → IsBlank rest →
            NameForm [c] ('\\' :: (piece ++ []) ++ gap) ([] ++ rest) := by
          intro gap rest escape blank
          have whole := NameForm.escape (startsEscape_append starts gap) escape (stops blank)
          simpa using whole
        cases piece_form with
        | plain hex => exact ⟨[], blank, rfl, fun _ => rfl, alone (.plain hex) hb⟩
        | spaced some all size space =>
            refine ⟨[], blank, rfl, fun _ => rfl, alone ?_ hb⟩
            rw [List.append_nil]
            exact .spaced some all size space
        | digits some all size stop space =>
            cases blank with
            | nil =>
                refine ⟨[], [], rfl, fun _ => rfl, alone ?_ hb⟩
                rw [List.append_nil]
                exact .digits some all size stop space
            | cons d blank =>
                obtain ⟨first, later⟩ := List.forall_mem_cons.mp hb
                exact ⟨[d], blank, rfl, fun some => absurd rfl some, alone (.spaced some all size first) later⟩
      · have head : ((front ++ gap) ++ (rest ++ behind)).head? = (front ++ rest).head? := by
          cases front with
          | cons d front => rfl
          | nil =>
              rw [goesOn last]
              cases rest with
              | cons d rest => rfl
              | nil => exact absurd rfl last
        have stops : ∀ {p : Char → Bool}, StopsAt p (front ++ rest) → StopsAt p ((front ++ gap) ++ (rest ++ behind)) :=
          fun h c hc => h c (head ▸ hc)
        refine ⟨gap, behind, same, goesOn, ?_⟩
        rw [List.cons_append, List.append_assoc]
        exact .escape starts (piece_form.follows stops stops) form

end

/-! Readers. -/

section

variable {text padded : List Char} (h : Padded text padded)
include h

theorem nameChars_padded : (nameChars padded).value = (nameChars text).value ∧
    Padded (text.drop (nameChars text).size) (padded.drop (nameChars padded).size) := by
  cases h with
  | @behind blank whole hb =>
      obtain ⟨front, rest, rfl, form, size⟩ := name_form text
      have left := whole.behind form.ended
      obtain ⟨gap, behind, rfl, goesOn, again⟩ := form.padded hb left.ended
      have same : front ++ rest ++ (gap ++ behind) = front ++ gap ++ (rest ++ behind) := by
        cases rest with
        | nil => simp
        | cons c rest => simp [goesOn]
      rw [same, again.read, size, List.drop_left, List.drop_left]
      exact ⟨rfl, .behind left (List.forall_mem_append.mp hb).2⟩

theorem name_agree (role : NameRole) (pos pos' : Nat) : Agree text padded (name role pos text) (name role pos' padded) := by
  obtain ⟨value, behind⟩ := nameChars_padded h
  unfold name
  dsimp only
  rw [Scan.map, Scan.map, value]
  split
  · exact .failed
  · exact .read behind

theorem Padded.startsIdent : Selector.startsIdent padded = Selector.startsIdent text := by
  cases h with
  | behind whole hb => exact startsIdent_padded hb whole.ended

theorem ident_agree (role : NameRole) (pos pos' : Nat) :
    Agree text padded (ident role pos text) (ident role pos' padded) := by
  unfold ident
  rw [h.startsIdent]
  split
  · exact name_agree h role pos pos'
  · cases text <;> cases padded <;> exact .failed

theorem Padded.head? {c : Char} (visible : isSpace c = false) : padded.head? = some c ↔ text.head? = some c := by
  cases h with
  | @behind blank _ hb =>
      cases text with
      | cons d text => rfl
      | nil =>
          refine ⟨fun first => ?_, fun first => by cases first⟩
          have space := hb c (List.mem_of_mem_head? first)
          rw [visible] at space
          cases space

end

/-- A text that begins with a character other than a backslash, without it. -/
theorem Padded.tail {c : Char} {text padded : List Char} (h : Padded (c :: text) padded) (mark : c ≠ '\\') :
    ∃ behind, padded = c :: behind ∧ Padded text behind := by
  cases h with
  | @behind blank whole hb => exact ⟨text ++ blank, rfl, .behind (whole.tail mark) hb⟩

theorem attributeTest_cons (pos : Nat) (c : Char) (rest : List Char) :
    attributeTest pos (c :: rest) =
      if c = ']' then .ok ⟨none, 1⟩
      else if c = '=' then .ok ⟨some .equals, 1⟩
      else match rest.head? == some '=', AttributeTest.ofSign? c with
        | true, some test => .ok ⟨some test, 2⟩
        | _, _ => reject .malformedAttribute (pos + 1) := by
  rw [attributeTest.eq_def]
  split
  · next same => cases same
  · next same =>
      obtain ⟨rfl, -⟩ := List.cons.inj same
      rfl
  · next same =>
      obtain ⟨rfl, -⟩ := List.cons.inj same
      rfl
  · next d more bracket equals same =>
      obtain ⟨rfl, rfl⟩ := List.cons.inj same
      rw [if_neg bracket, if_neg equals]
      cases AttributeTest.ofSign? c <;> rfl
  · next d more bracket equals sign same =>
      obtain ⟨rfl, rfl⟩ := List.cons.inj same
      have none : (rest.head? == some '=') = false := by
        rw [beq_eq_false_iff_ne]
        intro first
        obtain ⟨more, rfl⟩ := List.head?_eq_some_iff.mp first
        exact sign more rfl
      rw [if_neg bracket, if_neg equals, none]

/-- Only a bracket and the signs of tests begin a test. -/
theorem attributeTest_failed {text : List Char}
    (h : ∀ c, text.head? = some c → c ≠ ']' ∧ c ≠ '=' ∧ AttributeTest.ofSign? c = none) (pos : Nat) :
    ∃ r, attributeTest pos text = .error r := by
  cases text with
  | nil => exact ⟨_, rfl⟩
  | cons c rest =>
      obtain ⟨bracket, equals, sign⟩ := h c rfl
      rw [attributeTest_cons, if_neg bracket, if_neg equals, sign]
      cases rest.head? == some '=' <;> exact ⟨_, rfl⟩

theorem attributeEnd_cons (pos : Nat) (c : Char) (rest : List Char) :
    attributeEnd pos (c :: rest) =
      if c = ']' then .ok ⟨(), 1⟩
      else if isCaseFlag c then
        if rest.head? = some ']' then .ok ⟨(), 2⟩ else reject .malformedAttribute pos
      else reject .unclosedAttribute (pos + 1) := by
  unfold attributeEnd
  dsimp only
  split
  · rfl
  · split
    · split
      · rfl
      · next other =>
          rw [if_neg]
          intro first
          obtain ⟨more, rfl⟩ := List.head?_eq_some_iff.mp first
          exact other more rfl
    · rfl

theorem attributeEnd_blank {blank : List Char} (hb : IsBlank blank) (pos : Nat) :
    ∃ r, attributeEnd pos blank = .error r := by
  cases blank with
  | nil => exact ⟨_, rfl⟩
  | cons c blank =>
      have space := hb c List.mem_cons_self
      have mark : c ≠ ']' ∧ isCaseFlag c = false := by
        simp only [isSpace, Bool.or_eq_true, beq_iff_eq, or_assoc] at space
        rcases space with rfl | rfl | rfl | rfl | rfl <;> decide
      rw [attributeEnd_cons, if_neg mark.1, mark.2]
      exact ⟨_, rfl⟩

/-- A value without quotes is a name. -/
theorem attributeValue_plain {text : List Char} (plain : ∀ c ∈ text, isArgumentChar c = true) (pos : Nat) :
    attributeValue pos text = ident .attributeValue pos text := by
  cases text with
  | nil => rfl
  | cons c rest =>
      have first := plain c List.mem_cons_self
      simp only [isArgumentChar, Bool.and_eq_true, bne_iff_ne, ne_eq] at first
      unfold attributeValue
      exact if_neg (by simp [first])

section

variable {text padded : List Char} (h : Padded text padded)
include h

theorem attributeTest_agree (pos pos' : Nat) : Agree text padded (attributeTest pos text) (attributeTest pos' padded) := by
  have failed : (∀ c, text.head? = some c → c ≠ ']' ∧ c ≠ '=' ∧ AttributeTest.ofSign? c = none) →
      (∀ c, padded.head? = some c → c ≠ ']' ∧ c ≠ '=' ∧ AttributeTest.ofSign? c = none) →
        Agree text padded (attributeTest pos text) (attributeTest pos' padded) := by
    intro none none'
    obtain ⟨r, rejected⟩ := attributeTest_failed none pos
    obtain ⟨r', rejected'⟩ := attributeTest_failed none' pos'
    rw [rejected, rejected']
    exact .failed
  cases text with
  | nil =>
      refine failed (fun c hc => by cases hc) fun c hc => ?_
      have space := h.blank_iff.mp .nil c (List.mem_of_mem_head? hc)
      simp only [isSpace, Bool.or_eq_true, beq_iff_eq, or_assoc] at space
      rcases space with rfl | rfl | rfl | rfl | rfl <;> decide
  | cons c text =>
      by_cases slash : c = '\\'
      · subst slash
        have first : padded.head? = some '\\' := (h.head? (by decide)).mpr rfl
        refine failed (fun c hc => ?_) fun c hc => ?_
        · obtain rfl := Option.some.inj hc
          decide
        · obtain rfl := Option.some.inj (first.symm.trans hc)
          decide
      · obtain ⟨behind, rfl, tail⟩ := h.tail slash
        have sign : (behind.head? == some '=') = (text.head? == some '=') := by
          rw [Bool.eq_iff_iff, beq_iff_eq, beq_iff_eq]
          exact tail.head? (by decide)
        rw [attributeTest_cons, attributeTest_cons, sign]
        split
        · exact .read tail
        · split
          · exact .read tail
          · split
            · next equals _ =>
                obtain ⟨more, rfl⟩ := List.head?_eq_some_iff.mp (beq_iff_eq.mp equals)
                obtain ⟨_, rfl, later⟩ := tail.tail (by decide)
                exact .read later
            · exact .failed

theorem attributeEnd_agree (pos pos' : Nat) : Agree text padded (attributeEnd pos text) (attributeEnd pos' padded) := by
  cases text with
  | nil =>
      obtain ⟨r, rejected⟩ := attributeEnd_blank (h.blank_iff.mp .nil) pos'
      rw [rejected]
      exact .failed
  | cons c text =>
      rw [attributeEnd_cons]
      by_cases slash : c = '\\'
      · subst slash
        cases h
        rw [List.cons_append, attributeEnd_cons]
        exact .failed
      · obtain ⟨behind, rfl, tail⟩ := h.tail slash
        rw [attributeEnd_cons]
        split
        · exact .read tail
        · split
          · by_cases bracket : text.head? = some ']'
            · rw [if_pos bracket, if_pos ((tail.head? (by decide)).mpr bracket)]
              obtain ⟨more, rfl⟩ := List.head?_eq_some_iff.mp bracket
              obtain ⟨_, rfl, later⟩ := tail.tail (by decide)
              exact .read later
            · rw [if_neg bracket, if_neg fun first => bracket ((tail.head? (by decide)).mp first)]
              exact .failed
          · exact .failed

/-- No quote or parenthesis is in the text, and none in the white space. -/
theorem Padded.plain : (∀ c ∈ text, isArgumentChar c = true) ∧ ∀ c ∈ padded, isArgumentChar c = true := by
  cases h with
  | behind whole hb =>
      refine ⟨whole.plain, List.forall_mem_append.mpr ⟨whole.plain, fun c hc => ?_⟩⟩
      have space := hb c hc
      simp only [isSpace, Bool.or_eq_true, beq_iff_eq, or_assoc] at space
      rcases space with rfl | rfl | rfl | rfl | rfl <;> decide

theorem attributeValue_agree (pos pos' : Nat) :
    Agree text padded (attributeValue pos text) (attributeValue pos' padded) := by
  rw [attributeValue_plain h.plain.1, attributeValue_plain h.plain.2]
  exact ident_agree h .attributeValue pos pos'

theorem attributeSelector_agree (pos pos' : Nat) :
    Agree text padded (attributeSelector pos text) (attributeSelector pos' padded) := by
  unfold attributeSelector
  refine (ident_agree h.spaces _ _ _).bind fun name i j h => ?_
  have gap := h.spaces
  simp only [List.drop_drop] at gap
  refine (attributeTest_agree gap _ _).bind fun test i j h => ?_
  rw [List.drop_drop, List.drop_drop] at h
  cases test with
  | none => exact .read h
  | some test =>
      have gap := h.spaces
      rw [List.drop_drop, List.drop_drop] at gap
      refine (attributeValue_agree gap _ _).bind fun value i j h => ?_
      have gap := h.spaces
      simp only [List.drop_drop] at gap
      refine (attributeEnd_agree gap _ _).bind fun stop i j h => ?_
      rw [List.drop_drop, List.drop_drop] at h
      exact .read h

end

/-! Pseudo-classes and pseudo-elements, none of them with an argument. -/

theorem not_opening {text : List Char} (plain : ∀ c ∈ text, isArgumentChar c = true) (n : Nat) :
    (text.drop n).head? ≠ some '(' := by
  intro first
  cases plain '(' (List.mem_of_mem_drop (List.mem_of_mem_head? first))

theorem pseudoSimple_element (pos : Nat) (rest : List Char) :
    pseudoSimple (':' :: rest) pos = ident .pseudo (pos + 1) rest >>= fun name =>
      (pseudoElement (pos + (1 + name.size)) name.value (rest.drop name.size)).map (⟨·, 1 + name.size⟩) := by
  rw [pseudoSimple, pseudo]
  cases ident .pseudo (pos + 1) rest with
  | error _ => rfl
  | ok name =>
      dsimp only [bind, Except.bind]
      rw [drop_cons_add]
      cases pseudoElement (pos + (1 + name.size)) name.value (rest.drop name.size) <;> rfl

theorem pseudoSimple_plain {text : List Char} (plain : ∀ c ∈ text, isArgumentChar c = true)
    (colon : text.head? ≠ some ':') (pos : Nat) :
    pseudoSimple text pos = ident .pseudo pos text >>= fun name =>
      (plainPseudoClass (pos + name.size) name.value).map (⟨·, name.size⟩) := by
  have read : pseudo pos text = ident .pseudo pos text >>= fun name =>
      (plainPseudoClass (pos + name.size) name.value).map fun simple => ⟨.simple simple, name.size⟩ := by
    rw [pseudo.eq_def]
    split
    · exact absurd rfl colon
    · refine congrArg (ident .pseudo pos text >>= ·) (funext fun name => ?_)
      split
      · next opening => exact absurd (by rw [opening]; rfl) (not_opening plain name.size)
      · cases plainPseudoClass (pos + name.size) name.value <;> rfl
  rw [pseudoSimple, read]
  cases ident .pseudo pos text with
  | error _ => rfl
  | ok name =>
      dsimp only [bind, Except.bind]
      cases plainPseudoClass (pos + name.size) name.value <;> rfl

/-- What a name stands for does not depend on where it is. -/
theorem pseudoElement_anywhere {rest rest' : List Char} (closed : rest.head? ≠ some '(') (closed' : rest'.head? ≠ some '(')
    (pos pos' : Nat) (name : String) :
    (pseudoElement pos name rest).toOption = (pseudoElement pos' name rest').toOption := by
  have none : (rest.head? == some '(') = false := by simpa using closed
  have none' : (rest'.head? == some '(') = false := by simpa using closed'
  unfold pseudoElement
  rw [none, none']
  split
  · rfl
  · split <;> rfl

theorem plainPseudoClass_anywhere (pos pos' : Nat) (name : String) :
    (plainPseudoClass pos name).toOption = (plainPseudoClass pos' name).toOption := by
  unfold plainPseudoClass
  split
  · rfl
  · split <;> rfl

section

variable {text padded : List Char} (h : Padded text padded)
include h

theorem pseudoSimple_agree (pos pos' : Nat) : Agree text padded (pseudoSimple text pos) (pseudoSimple padded pos') := by
  obtain ⟨plain, plain'⟩ := h.plain
  by_cases colon : text.head? = some ':'
  · obtain ⟨rest, rfl⟩ := List.head?_eq_some_iff.mp colon
    obtain ⟨behind, rfl, tail⟩ := h.tail (by decide)
    rw [pseudoSimple_element, pseudoSimple_element]
    refine (ident_agree tail _ _ _).bind fun name i j left => ?_
    rw [← drop_cons_add ':' rest, ← drop_cons_add ':' behind] at left
    exact .sized left (pseudoElement_anywhere (not_opening tail.plain.1 i) (not_opening tail.plain.2 j) _ _ _)
  · have colon' : padded.head? ≠ some ':' := fun first => colon ((h.head? (by decide)).mp first)
    rw [pseudoSimple_plain plain colon, pseudoSimple_plain plain' colon']
    refine (ident_agree h _ _ _).bind fun name i j left => ?_
    exact .sized left (plainPseudoClass_anywhere _ _ _)

theorem marked_agree (c : Char) (pos pos' : Nat) : Agree text padded (marked c text pos) (marked c padded pos') := by
  unfold marked
  split
  · exact (ident_agree h _ _ _).map _
  · split
    · exact (name_agree h _ _ _).map _
    · split
      · exact .read h
      · exact attributeSelector_agree h _ _

theorem typeSelector_agree (pos pos' : Nat) :
    Agree text padded (typeSelector pos text) (typeSelector pos' padded) := by
  unfold typeSelector
  rw [h.startsIdent]
  by_cases star : text.head? = some '*'
  · rw [if_pos star, if_pos ((h.head? (by decide)).mpr star)]
    obtain ⟨rest, rfl⟩ := List.head?_eq_some_iff.mp star
    obtain ⟨_, rfl, tail⟩ := h.tail (by decide)
    exact .read tail
  · rw [if_neg star, if_neg fun first => star ((h.head? (by decide)).mp first)]
    split
    · exact (ident_agree h _ _ _).map _
    · exact .read h

end

/-! Compounds and selectors. -/

theorem simples_agree {text padded : List Char} (h : Padded text padded) (pos pos' : Nat) :
    Agree text padded (simples pos text) (simples pos' padded) := by
  induction length : text.length using Nat.strong_induction_on generalizing text padded pos pos' with | _ length ih => ?_
  subst length
  cases text with
  | nil =>
      have stops : StopsAt extendsCompound padded := by
        have blank := IsBlank.stops (h.blank_iff.mp .nil) (StopsAt.nil (p := extendsCompound))
        rwa [List.append_nil] at blank
      rw [simples, simples_stops stops]
      exact .read h
  | cons c rest =>
      have starts := h.startsIdent
      cases h with
      | @behind blank whole hb =>
        have tail : c ≠ '\\' → Padded rest (rest ++ blank) := fun mark => .behind (whole.tail mark) hb
        have later : ∀ value i j, Padded (rest.drop i) ((rest ++ blank).drop j) →
            Agree (c :: rest) (c :: (rest ++ blank)) (simplesBehind rest pos ⟨value, i⟩)
              (simplesBehind (rest ++ blank) pos' ⟨value, j⟩) := by
          intro value i j left
          have shorter : (rest.drop i).length < (c :: rest).length := by
            rw [List.length_drop, List.length_cons]
            omega
          refine Agree.behind ?_ _
          rw [drop_cons_add, drop_cons_add]
          exact ih _ shorter left _ _ rfl
        rw [List.cons_append] at starts ⊢
        rw [simples_cons, simples_cons, starts]
        split
        · next colon => exact (pseudoSimple_agree (tail (by rw [colon]; decide)) _ _).bind later
        · split
          · exact .failed
          · split
            · exact .failed
            · split
              · next mark =>
                  have plain : c ≠ '\\' := by rcases mark with rfl | rfl | rfl | rfl <;> decide
                  exact (marked_agree (tail plain) c _ _).bind later
              · exact .read (.behind whole hb)

theorem compound_agree {text padded : List Char} (h : Padded text padded) (pos pos' : Nat) :
    Agree text padded (compound pos text) (compound pos' padded) := by
  rw [compound_eq, compound_eq]
  refine (typeSelector_agree h _ _).bind fun start i j h => ?_
  refine (simples_agree h _ _).bind fun more i j h => ?_
  rw [List.drop_drop, List.drop_drop] at h
  dsimp only
  split
  · exact .failed
  · exact .read h

/-- White space behind a text does not change whether it is a list of one compound. -/
theorem selectors_padded_iff {text padded : List Char} (h : Padded text padded) {parts : Compound} :
    selectors 0 padded = .ok [⟨parts, []⟩] ↔ selectors 0 text = .ok [⟨parts, []⟩] := by
  have same := compound_agree h.spaces (spaces text) (spaces padded)
  rw [selectors_lone_iff, selectors_lone_iff]
  simp only [← List.drop_drop]
  generalize compound (spaces text) (text.drop (spaces text)) = x at same ⊢
  generalize compound (spaces padded) (padded.drop (spaces padded)) = y at same ⊢
  cases same with
  | failed =>
      constructor
      · rintro ⟨_, read, -⟩
        cases read
      · rintro ⟨_, read, -⟩
        cases read
  | @read value n m left =>
      constructor
      · rintro ⟨k, read, blank⟩
        obtain ⟨rfl, rfl⟩ := Scan.mk.inj (Except.ok.inj read)
        exact ⟨n, rfl, left.blank_iff.mpr blank⟩
      · rintro ⟨k, read, blank⟩
        obtain ⟨rfl, rfl⟩ := Scan.mk.inj (Except.ok.inj read)
        exact ⟨m, rfl, left.blank_iff.mp blank⟩

end StyleAudit.Selector
