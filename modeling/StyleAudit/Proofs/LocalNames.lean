import StyleAudit.Proofs.SelectorListWriting
/-!
Names, strings and attributes in front of other text. What a reader of the grammar takes of a text, it takes in front of
any other text that does not go on with it. Only an escape takes white space with it, one character.
-/
namespace StyleAudit.Selector

open Text (Scan isHexDigit hexNumber charOfNumber)

/-- A text that may stand behind the front of another in place of the rest. If the front may end in an escape, no white
space comes where there was none. -/
structure Follows (p : Char → Bool) (front rest other : List Char) : Prop where
  stops : StopsAt p other
  escape : '\\' ∈ front → StopsAt isSpace rest → StopsAt isSpace other

namespace Follows

variable {p q : Char → Bool} {front rest other : List Char}

theorem mono (h : Follows p front rest other) (hq : ∀ c, q c = true → p c = true) : Follows q front rest other :=
  ⟨h.stops.mono hq, h.escape⟩

theorem tail (piece : List Char) (h : Follows p (piece ++ front) rest other) : Follows p front rest other :=
  ⟨h.stops, fun mem => h.escape (List.mem_append_right piece mem)⟩

end Follows

/-- A text that begins alike stops alike. -/
theorem StopsAt.exchange {p : Char → Bool} {front rest other : List Char} (h : StopsAt p (front ++ rest))
    (behind : StopsAt p rest → StopsAt p other) : StopsAt p (front ++ other) := by
  cases front with
  | nil => exact behind h
  | cons c front => exact .cons (h c rfl)

theorem StopsAt.front {p : Char → Bool} {front rest : List Char} (h : StopsAt p (front ++ rest)) : StopsAt p front := by
  have alone := h.exchange fun _ => StopsAt.nil
  rwa [List.append_nil] at alone

theorem StopsAt.append {p : Char → Bool} {front rest : List Char} (h : StopsAt p front) (hr : StopsAt p rest) :
    StopsAt p (front ++ rest) := by
  rw [← List.append_nil front] at h
  exact h.exchange fun _ => hr

/-- What follows two pieces of a text, seen from the first of them. -/
theorem Follows.front {p q : Char → Bool} {front behind rest other : List Char}
    (h : Follows p (front ++ behind) rest other) (stops : StopsAt q (behind ++ other)) :
    Follows q front (behind ++ rest) (behind ++ other) :=
  ⟨stops, fun mem space => space.exchange (h.escape (List.mem_append_left behind mem))⟩

/-- A reader that takes the same of a text in front of all that may stand behind it. -/
structure IsLocal {α : Type} (p : Char → Bool) (read : List Char → Except Rejection (Scan α))
    (front rest : List Char) (s : Scan α) : Prop where
  size : s.size = front.length
  again : ∀ other, Follows p front rest other → read (front ++ other) = .ok s

/-- A reader that takes the same of a text whatever stands behind it. -/
structure IsSealed {α : Type} (read : List Char → Except Rejection (Scan α)) (front : List Char) (s : Scan α) :
    Prop where
  size : s.size = front.length
  again : ∀ other, read (front ++ other) = .ok s

/-! Escapes. -/

/-- The characters of an escape behind its backslash, with what they stand for and the text behind them. -/
inductive EscapeForm : Char → List Char → List Char → Prop
  | plain {c : Char} {rest : List Char} : isHexDigit c = false → EscapeForm c [c] rest
  | spaced {digits : List Char} {space : Char} {rest : List Char} : digits ≠ [] → (∀ c ∈ digits, isHexDigit c = true) →
      digits.length ≤ 6 → isSpace space = true →
      EscapeForm (charOfNumber (hexNumber digits)) (digits ++ [space]) rest
  | digits {digits rest : List Char} : digits ≠ [] → (∀ c ∈ digits, isHexDigit c = true) → digits.length ≤ 6 →
      (digits.length < 6 → StopsAt isHexDigit rest) → StopsAt isSpace rest →
      EscapeForm (charOfNumber (hexNumber digits)) digits rest

theorem takeWhile_take {p : Char → Bool} {front rest : List Char} {n : Nat} (hp : ∀ c ∈ front, p c = true)
    (size : front.length ≤ n) (stops : front.length < n → StopsAt p rest) :
    ((front ++ rest).take n).takeWhile p = front := by
  rw [List.take_append, List.take_of_length_le size, List.takeWhile_append_of_pos hp]
  have none : (rest.take (n - front.length)).takeWhile p = [] := by
    rcases Nat.lt_or_ge front.length n with short | long
    · cases rest with
      | nil => rw [List.take_nil]; rfl
      | cons c rest =>
          obtain ⟨k, more⟩ : ∃ k, n - front.length = k + 1 := ⟨n - front.length - 1, by omega⟩
          rw [more, List.take_succ_cons, List.takeWhile_cons_of_neg]
          simpa using stops short c rfl
    · rw [Nat.sub_eq_zero_of_le long]
      rfl
  rw [none, List.append_nil]

theorem takeWhile_take_form (p : Char → Bool) (n : Nat) (text : List Char) :
    ∃ front rest, text = front ++ rest ∧ (text.take n).takeWhile p = front ∧ (∀ c ∈ front, p c = true) ∧
      front.length ≤ n ∧ (front.length < n → StopsAt p rest) := by
  induction n generalizing text with
  | zero => exact ⟨[], text, rfl, rfl, by simp, Nat.le_refl 0, fun h => absurd h (Nat.lt_irrefl 0)⟩
  | succ n ih =>
      cases text with
      | nil => exact ⟨[], [], rfl, rfl, by simp, Nat.zero_le _, fun _ => .nil⟩
      | cons c text =>
          cases goesOn : p c with
          | false => exact ⟨[], c :: text, rfl, by simp [goesOn], by simp, Nat.zero_le _, fun _ => .cons goesOn⟩
          | true =>
              obtain ⟨front, rest, rfl, taken, all, size, stops⟩ := ih text
              refine ⟨c :: front, rest, rfl, by simp [goesOn, taken], ?_, Nat.succ_le_succ size,
                fun h => stops (Nat.lt_of_succ_lt_succ h)⟩
              exact List.forall_mem_cons.mpr ⟨goesOn, all⟩

theorem not_isHexDigit_of_isSpace {c : Char} (h : isSpace c = true) : isHexDigit c = false := by
  simp only [isSpace, Bool.or_eq_true, beq_iff_eq, or_assoc] at h
  rcases h with rfl | rfl | rfl | rfl | rfl <;> decide

theorem escaped_form {text : List Char} (h : text ≠ []) :
    ∃ piece rest, text = piece ++ rest ∧ EscapeForm (escaped text).value piece rest ∧
      (escaped text).size = piece.length := by
  obtain ⟨digits, rest, rfl, taken, all, size, stops⟩ := takeWhile_take_form isHexDigit 6 text
  rw [escaped.eq_def, taken]
  by_cases none : digits = []
  · subst none
    cases rest with
    | nil => exact absurd rfl h
    | cons c rest => exact ⟨[c], rest, rfl, .plain (stops (by decide) c rfl), rfl⟩
  · dsimp only
    rw [if_neg none, List.drop_left]
    cases rest with
    | nil => exact ⟨digits, [], rfl, .digits none all size stops .nil, rfl⟩
    | cons c rest =>
        cases space : isSpace c with
        | false => exact ⟨digits, c :: rest, rfl, .digits none all size stops (.cons space), by simp [space]⟩
        | true =>
            exact ⟨digits ++ [c], rest, by simp, .spaced none all size space, by simp [space]⟩

theorem EscapeForm.read {c : Char} {piece rest : List Char} (h : EscapeForm c piece rest) :
    escaped (piece ++ rest) = ⟨c, piece.length⟩ := by
  cases h with
  | plain hex => simp [escaped.eq_def, hex]
  | @spaced digits space _ some all size blank =>
      have taken : ((digits ++ space :: rest).take 6).takeWhile isHexDigit = digits :=
        takeWhile_take all size fun _ => .cons (not_isHexDigit_of_isSpace blank)
      rw [List.append_assoc, List.singleton_append, escaped.eq_def, taken]
      simp [some, blank]
  | digits some all size stops blank =>
      rw [escaped.eq_def, takeWhile_take all size stops]
      dsimp only
      rw [if_neg some, List.drop_left]
      cases rest with
      | nil => rfl
      | cons d rest => simp [blank d rfl]

theorem EscapeForm.follows {c : Char} {piece rest other : List Char} (h : EscapeForm c piece rest)
    (hex : StopsAt isHexDigit rest → StopsAt isHexDigit other) (space : StopsAt isSpace rest → StopsAt isSpace other) :
    EscapeForm c piece other := by
  cases h with
  | plain digit => exact .plain digit
  | spaced some all size blank => exact .spaced some all size blank
  | digits some all size stops blank => exact .digits some all size (fun h => hex (stops h)) (space blank)

/-! Names. -/

/-- The characters of a name, with the name and the text behind it. -/
inductive NameForm : List Char → List Char → List Char → Prop
  | stop {rest : List Char} : StopsAt isNameChar rest → startsEscape rest = false → NameForm [] [] rest
  | char {c : Char} {value front rest : List Char} : isNameChar c = true → NameForm value front rest →
      NameForm (c :: value) (c :: front) rest
  | escape {c : Char} {value piece front rest : List Char} : startsEscape ('\\' :: piece) = true →
      EscapeForm c piece (front ++ rest) → NameForm value front rest →
      NameForm (c :: value) ('\\' :: (piece ++ front)) rest

theorem startsEscape_cons {c : Char} {rest : List Char} (h : startsEscape (c :: rest) = true) :
    c = '\\' ∧ rest ≠ [] := by
  unfold startsEscape at h
  split at h
  · next same =>
      obtain ⟨rfl, rfl⟩ := List.cons.inj same
      exact ⟨rfl, by simp⟩
  · cases h

theorem startsEscape_append {text : List Char} (h : startsEscape text = true) (rest : List Char) :
    startsEscape (text ++ rest) = true := by
  unfold startsEscape at h
  split at h
  · exact h
  · cases h

theorem EscapeForm.starts {c : Char} {piece rest : List Char} (h : EscapeForm c piece rest)
    (escape : startsEscape ('\\' :: (piece ++ rest)) = true) : startsEscape ('\\' :: piece) = true := by
  cases h with
  | plain _ => exact escape
  | @spaced digits _ _ some =>
      cases digits with
      | nil => exact absurd rfl some
      | cons d digits => exact escape
  | digits some =>
      cases piece with
      | nil => exact absurd rfl some
      | cons d digits => exact escape

theorem name_form (text : List Char) :
    ∃ front rest, text = front ++ rest ∧ NameForm (nameChars text).value front rest ∧
      (nameChars text).size = front.length := by
  induction text using nameChars.induct with
  | case1 => exact ⟨[], [], rfl, by rw [nameChars]; exact .stop .nil rfl, by rw [nameChars]; rfl⟩
  | case2 c rest letter ih =>
      obtain ⟨front, rest, rfl, form, size⟩ := ih
      rw [nameChars, if_pos letter]
      exact ⟨c :: front, rest, rfl, .char letter form, by simp [size, Nat.add_comm]⟩
  | case3 c rest other escape e ih =>
      obtain ⟨rfl, some⟩ := startsEscape_cons escape
      obtain ⟨piece, behind, rfl, piece_form, piece_size⟩ := escaped_form some
      have dropped : (piece ++ behind).drop e.size = behind := by rw [piece_size, List.drop_left]
      rw [dropped] at ih
      obtain ⟨front, rest, rfl, form, size⟩ := ih
      rw [nameChars, if_neg other, if_pos escape]
      dsimp only
      rw [dropped]
      refine ⟨'\\' :: (piece ++ front), rest, by simp, .escape (piece_form.starts escape) piece_form form, ?_⟩
      simp only [Scan.behind_size, size, piece_size, List.length_cons, List.length_append]
      omega
  | case4 c rest other escape =>
      rw [nameChars, if_neg other, if_neg escape]
      exact ⟨[], c :: rest, rfl, .stop (.cons (by simpa using other)) (by simpa using escape), rfl⟩

theorem NameForm.read {value front rest : List Char} (h : NameForm value front rest) :
    nameChars (front ++ rest) = ⟨value, front.length⟩ := by
  induction h with
  | @stop rest stops escape =>
      cases rest with
      | nil => rw [List.append_nil, nameChars]; rfl
      | cons c rest => rw [List.nil_append, nameChars, stops c rfl, escape]; simp
  | char letter _ ih => rw [List.cons_append, nameChars, if_pos letter, ih]; simp [Scan.behind, Nat.add_comm]
  | @escape c value piece front rest starts piece_form _ ih =>
      have escape := startsEscape_append starts (front ++ rest)
      rw [List.cons_append, ← List.append_assoc] at escape
      rw [List.cons_append, nameChars, if_neg (by decide), if_pos escape, List.append_assoc, piece_form.read]
      dsimp only
      rw [List.drop_left, ih]
      simp only [Scan.behind, List.length_cons, List.length_append, Scan.mk.injEq, true_and]
      omega

theorem NameForm.stops {value front rest : List Char} (h : NameForm value front rest) : StopsAt isNameChar rest := by
  induction h with
  | stop stops _ => exact stops
  | char _ _ ih => exact ih
  | escape _ _ _ ih => exact ih

theorem extendsName_of_isHexDigit {c : Char} (h : isHexDigit c = true) : extendsName c = true := by
  simp only [isHexDigit, Bool.or_eq_true, Bool.and_eq_true, decide_eq_true_eq, Char.le_def, UInt32.le_iff_toNat_le,
    isDigit_iff] at h
  change (_ ∨ (97 ≤ c.toNat ∧ c.toNat ≤ 102)) ∨ (65 ≤ c.toNat ∧ c.toNat ≤ 70) at h
  rw [extendsName, Bool.or_eq_true, isNameChar_iff, isNameStart_iff]
  omega

theorem NameForm.follows {value front rest other : List Char} (h : NameForm value front rest)
    (f : Follows extendsName front rest other) : NameForm value front other := by
  induction h with
  | stop => exact .stop (f.stops.mono fun c hc => by simp [extendsName, hc]) (startsEscape_of_stops f.stops)
  | char letter _ ih => exact .char letter (ih (f.tail [_]))
  | @escape c value piece front rest starts piece_form _ ih =>
      have behind : Follows extendsName front rest other := f.tail (_ :: piece)
      refine .escape starts (piece_form.follows ?_ ?_) (ih behind)
      · exact fun hex => hex.exchange fun _ => f.stops.mono fun c => extendsName_of_isHexDigit
      · exact fun space => space.exchange (f.escape List.mem_cons_self)

theorem startsEscape_of_isNameChar {c : Char} (h : isNameChar c = true) (rest : List Char) :
    startsEscape (c :: rest) = false := by
  rw [Bool.eq_false_iff]
  intro escape
  rw [(startsEscape_cons escape).1] at h
  exact absurd h (by decide)

/-- Whether a name is an identifier shows in the name itself. -/
theorem NameForm.startsIdent {value front rest : List Char} (h : NameForm value front rest) (some : value ≠ [])
    (starts : startsIdent (front ++ rest) = true) (other : List Char) : startsIdent (front ++ other) = true := by
  cases h with
  | stop => exact absurd rfl some
  | @char c value front _ letter more =>
      rw [List.cons_append, startsIdent.eq_def] at starts ⊢
      dsimp only at starts ⊢
      by_cases dash : c = '-'
      · rw [if_pos dash] at starts ⊢
        cases more with
        | stop stops escape =>
            rw [List.nil_append, escape] at starts
            cases rest with
            | nil => cases starts
            | cons d rest =>
                have none := stops d rfl
                simp only [isNameChar, Bool.or_eq_false_iff] at none
                simp [none] at starts
        | char next _ =>
            rw [List.cons_append, startsEscape_of_isNameChar next] at starts ⊢
            exact starts
        | escape escape =>
            rw [List.cons_append, List.append_assoc]
            rw [Bool.or_eq_true]
            exact .inr (startsEscape_append escape _)
      · rw [if_neg dash, startsEscape_of_isNameChar letter] at starts ⊢
        exact starts
  | escape escape =>
      rw [List.cons_append, List.append_assoc, startsIdent.eq_def]
      dsimp only
      rw [if_neg (by decide), Bool.or_eq_true]
      exact .inr (startsEscape_append escape _)

/-- A text that begins with a character of the class. -/
def Begins (p : Char → Bool) (text : List Char) : Prop := ∃ c rest, text = c :: rest ∧ p c = true

theorem NameForm.begins {value front rest : List Char} (h : NameForm value front rest) (some : value ≠ []) :
    Begins extendsName front := by
  cases h with
  | stop => exact absurd rfl some
  | char letter => exact ⟨_, _, rfl, by simp [extendsName, letter]⟩
  | escape => exact ⟨_, _, rfl, by decide⟩

theorem NameForm.name {value front rest : List Char} (h : NameForm value front rest) (some : value ≠ [])
    (role : NameRole) (pos : Nat) : name role pos (front ++ rest) = .ok ⟨String.ofList value, front.length⟩ := by
  rw [Selector.name, h.read]
  exact if_neg some

theorem nameForm_of_name {role : NameRole} {pos : Nat} {text : List Char} {s : Scan String}
    (h : name role pos text = .ok s) : ∃ value front rest, text = front ++ rest ∧ NameForm value front rest ∧
      value ≠ [] ∧ s = ⟨String.ofList value, front.length⟩ := by
  obtain ⟨front, rest, same, form, -⟩ := name_form text
  refine ⟨_, front, rest, same, form, ?_⟩
  rw [same] at h
  by_cases none : (nameChars text).value = []
  · rw [Selector.name, form.read] at h
    rw [if_pos none] at h
    cases h
  · rw [form.name none] at h
    exact ⟨none, (Except.ok.inj h).symm⟩

theorem name_local {role : NameRole} {pos : Nat} {text : List Char} {s : Scan String}
    (h : name role pos text = .ok s) :
    ∃ front rest, text = front ++ rest ∧ IsLocal extendsName (name role pos) front rest s := by
  obtain ⟨value, front, rest, rfl, form, some, rfl⟩ := nameForm_of_name h
  exact ⟨front, rest, rfl, rfl, fun other follows => (form.follows follows).name some role pos⟩

theorem ident_local {role : NameRole} {pos : Nat} {text : List Char} {s : Scan String}
    (h : ident role pos text = .ok s) :
    ∃ front rest, text = front ++ rest ∧ Begins extendsName front ∧ StopsAt isNameChar rest ∧
      (∀ other, startsIdent (front ++ other) = true) ∧ IsLocal extendsName (ident role pos) front rest s := by
  unfold ident at h
  split at h
  · next starts =>
      obtain ⟨value, front, rest, rfl, form, some, rfl⟩ := nameForm_of_name h
      have again := form.startsIdent some starts
      refine ⟨front, rest, rfl, form.begins some, form.stops, again, rfl, fun other follows => ?_⟩
      unfold ident
      rw [if_pos (again other), (form.follows follows).name some]
  · split at h <;> cases h

/-! Strings and attributes, which end where they say so themselves. -/

theorem IsSealed.isLocal {α : Type} {p : Char → Bool} {read : List Char → Except Rejection (Scan α)}
    {front rest : List Char} {s : Scan α} (h : IsSealed read front s) : IsLocal p read front rest s :=
  ⟨h.size, fun other _ => h.again other⟩

theorem string_sealed {quote : Char} {pos : Nat} {text : List Char} {s : Scan (List Char)}
    (h : string quote pos text = .ok s) :
    ∃ front rest, text = front ++ rest ∧ IsSealed (string quote pos) front s := by
  -- on the length, since a backslash takes the next character with it
  induction length : text.length using Nat.strong_induction_on generalizing pos text s with | _ length ih => ?_
  subst length
  cases text with
  | nil => cases h
  | cons c text =>
      rw [string.eq_def] at h
      dsimp only at h
      by_cases closing : c = quote
      · rw [if_pos closing] at h
        obtain rfl := Except.ok.inj h
        refine ⟨[c], text, rfl, rfl, fun other => ?_⟩
        rw [List.singleton_append, string.eq_def]
        exact if_pos closing
      · rw [if_neg closing] at h
        by_cases slash : c = '\\'
        · rw [if_pos slash] at h
          cases text with
          | nil => cases h
          | cons d text =>
              obtain ⟨more, read, rfl⟩ := map_eq_ok h
              obtain ⟨front, rest, rfl, tail⟩ := ih _ (by simp) read rfl
              refine ⟨c :: d :: front, rest, rfl, by simp [tail.size, Nat.add_comm 2], fun other => ?_⟩
              rw [List.cons_append, List.cons_append, string.eq_def]
              simp only [if_neg closing, if_pos slash, tail.again other]
              rfl
        · rw [if_neg slash] at h
          by_cases line : c = '\n'
          · rw [if_pos line] at h
            cases h
          · rw [if_neg line] at h
            obtain ⟨more, read, rfl⟩ := map_eq_ok h
            obtain ⟨front, rest, rfl, tail⟩ := ih _ (by simp) read rfl
            refine ⟨c :: front, rest, rfl, by simp [tail.size, Nat.add_comm 1], fun other => ?_⟩
            rw [List.cons_append, string.eq_def]
            simp only [if_neg closing, if_neg slash, if_neg line, tail.again other]
            rfl

/-- The sign of a test goes on with no name in front of it. -/
theorem attributeTest_sealed {pos : Nat} {text : List Char} {s : Scan (Option AttributeTest)}
    (h : attributeTest pos text = .ok s) :
    ∃ front rest, text = front ++ rest ∧ (∀ other, StopsAt extendsName (front ++ other)) ∧
      (∀ other, StopsAt isSpace (front ++ other)) ∧ IsSealed (attributeTest pos) front s := by
  unfold attributeTest at h
  split at h
  · cases h
  · next rest =>
      obtain rfl := Except.ok.inj h
      exact ⟨[']'], rest, rfl, fun _ => .cons (by decide), fun _ => .cons (by decide), rfl, fun _ => rfl⟩
  · next rest =>
      obtain rfl := Except.ok.inj h
      exact ⟨['='], rest, rfl, fun _ => .cons (by decide), fun _ => .cons (by decide), rfl, fun _ => rfl⟩
  · next c rest bracket equals =>
      cases sign : AttributeTest.ofSign? c with
      | none => rw [sign] at h; cases h
      | some test =>
          rw [sign] at h
          obtain rfl := Except.ok.inj h
          have mark : extendsName c = false ∧ isSpace c = false := by
            unfold AttributeTest.ofSign? at sign
            split at sign <;> first | decide | cases sign
          refine ⟨[c, '='], rest, rfl, fun _ => .cons mark.1, fun _ => .cons mark.2, rfl, fun other => ?_⟩
          rw [List.cons_append, List.singleton_append, attributeTest.eq_4 pos c other bracket equals, sign]
  · cases h

theorem attributeEnd_sealed {pos : Nat} {text : List Char} {s : Scan Unit} (h : attributeEnd pos text = .ok s) :
    ∃ front rest, text = front ++ rest ∧ (∃ c tail, front = c :: tail ∧ c ≠ '\\' ∧ isSpace c = false) ∧
      IsSealed (attributeEnd pos) front s := by
  unfold attributeEnd at h
  split at h
  · cases h
  · next c rest =>
      by_cases closing : c = ']'
      · subst closing
        obtain rfl := Except.ok.inj h
        exact ⟨[']'], rest, rfl, ⟨_, _, rfl, by decide, by decide⟩, rfl, fun _ => rfl⟩
      · rw [if_neg closing] at h
        by_cases flag : isCaseFlag c = true
        · rw [if_pos flag] at h
          split at h
          · next rest =>
              obtain rfl := Except.ok.inj h
              have mark : c ≠ '\\' ∧ isSpace c = false := by
                simp only [isCaseFlag, Bool.or_eq_true, beq_iff_eq, or_assoc] at flag
                rcases flag with rfl | rfl | rfl | rfl <;> decide
              refine ⟨[c, ']'], rest, rfl, ⟨_, _, rfl, mark⟩, rfl, fun other => ?_⟩
              simp [attributeEnd, closing, flag]
          · cases h
        · rw [if_neg flag] at h
          cases h

theorem spaces_form (text : List Char) :
    ∃ blank rest, text = blank ++ rest ∧ IsBlank blank ∧ spaces text = blank.length ∧ StopsAt isSpace rest := by
  refine ⟨text.takeWhile isSpace, text.dropWhile isSpace, List.takeWhile_append_dropWhile.symm, ?_, rfl, ?_⟩
  · exact fun c hc => List.all_eq_true.mp List.all_takeWhile c hc
  · intro c hc
    have first := List.head?_dropWhile_not isSpace text
    rw [hc] at first
    simpa using first

theorem IsBlank.stopsAt {p : Char → Bool} {blank rest : List Char} (h : IsBlank blank)
    (hp : ∀ c, isSpace c = true → p c = false) (hr : StopsAt p rest) : StopsAt p (blank ++ rest) := by
  cases blank with
  | nil => exact hr
  | cons c blank => exact .cons (hp c (h c List.mem_cons_self))

theorem not_extendsName_of_isSpace {c : Char} (h : isSpace c = true) : extendsName c = false := by
  simp only [isSpace, Bool.or_eq_true, beq_iff_eq, or_assoc] at h
  rcases h with rfl | rfl | rfl | rfl | rfl <;> decide

theorem attributeValue_local {pos : Nat} {text : List Char} {s : Scan String} (h : attributeValue pos text = .ok s) :
    ∃ front rest, text = front ++ rest ∧ (IsSealed (attributeValue pos) front s ∨
      StopsAt isNameChar rest ∧ IsLocal extendsName (attributeValue pos) front rest s) := by
  cases text with
  | nil => cases h
  | cons c text =>
      unfold attributeValue at h
      dsimp only at h
      split at h
      · next quote =>
          obtain ⟨value, read, rfl⟩ := map_eq_ok h
          obtain ⟨front, rest, rfl, sealed⟩ := string_sealed read
          refine ⟨c :: front, rest, rfl, .inl ⟨by simp [sealed.size, Nat.add_comm 1], fun other => ?_⟩⟩
          unfold attributeValue
          simp only [List.cons_append, if_pos quote, sealed.again other]
          rfl
      · next bare =>
          obtain ⟨front, rest, same, ⟨d, tail, rfl, -⟩, stops, -, read⟩ := ident_local h
          obtain ⟨rfl, rfl⟩ := List.cons.inj same
          refine ⟨c :: tail, rest, rfl, .inr ⟨stops, read.size, fun other follows => ?_⟩⟩
          unfold attributeValue
          simp only [List.cons_append, if_neg bare]
          exact read.again other follows

theorem Begins.stopsAtSpace {text : List Char} (h : Begins extendsName text) (rest : List Char) :
    StopsAt isSpace (text ++ rest) := by
  obtain ⟨c, tail, rfl, name⟩ := h
  refine .cons ?_
  rw [Bool.eq_false_iff]
  intro space
  rw [not_extendsName_of_isSpace space] at name
  cases name

/-- What follows a name is white space or the end of an attribute selector, so that it is the same in front of any
text. -/
theorem follows_closing {front blank behind rest : List Char} (hb : IsBlank blank)
    (mark : ∃ c tail, behind = c :: tail ∧ c ≠ '\\' ∧ isSpace c = false)
    (stops : StopsAt isNameChar (blank ++ (behind ++ rest))) (other : List Char) :
    Follows extendsName front (blank ++ (behind ++ rest)) (blank ++ (behind ++ other)) := by
  obtain ⟨c, tail, rfl, slash, space⟩ := mark
  constructor
  · cases blank with
    | nil =>
        refine .cons ?_
        rw [extendsName, stops c rfl]
        simpa using slash
    | cons d blank => exact .cons (not_extendsName_of_isSpace (hb d List.mem_cons_self))
  · exact fun _ before => before.exchange fun _ => .cons space

/-- The value of an attribute and the end of its selector, with white space before each, in front of any text. -/
structure ValueForm (pos stop : Nat) (gap letters last close : List Char) (value : Scan String) (ending : Scan Unit)
    (rest : List Char) : Prop where
  gap : spaces (gap ++ (letters ++ (last ++ (close ++ rest)))) = gap.length
  value : attributeValue pos (letters ++ (last ++ (close ++ rest))) = .ok value
  last : spaces (last ++ (close ++ rest)) = last.length
  ending : attributeEnd stop (close ++ rest) = .ok ending

theorem value_sealed {pos stop : Nat} {text : List Char} {value : Scan String} {ending : Scan Unit}
    (valued : attributeValue pos (text.drop (spaces text)) = .ok value)
    (ended : attributeEnd stop (text.drop (spaces text + value.size +
      spaces (text.drop (spaces text + value.size)))) = .ok ending) :
    ∃ gap letters last close rest, text = gap ++ (letters ++ (last ++ (close ++ rest))) ∧
      value.size = letters.length ∧ ending.size = close.length ∧
      ∀ other, ValueForm pos stop gap letters last close value ending other := by
  obtain ⟨gap, text, rfl, hgap, size, noBlank⟩ := spaces_form text
  rw [size, List.drop_left] at valued
  obtain ⟨letters, text, rfl, taken⟩ := attributeValue_local valued
  have valueSize : value.size = letters.length := taken.elim (·.size) (·.2.size)
  simp only [size, valueSize, ← List.drop_drop, List.drop_left] at ended
  obtain ⟨last, text, rfl, hlast, size', -⟩ := spaces_form text
  simp only [size', List.drop_left] at ended
  obtain ⟨close, rest, rfl, mark, ended⟩ := attributeEnd_sealed ended
  have noSpace : ∀ other, StopsAt isSpace (close ++ other) := by
    obtain ⟨c, tail, rfl, -, space⟩ := mark
    exact fun other => .cons space
  refine ⟨gap, letters, last, close, rest, rfl, valueSize, ended.size, fun other => ?_⟩
  refine ⟨spaces_append hgap ?_, ?_, spaces_append hlast (noSpace other), ended.again other⟩
  · exact noBlank.exchange fun behind => behind.exchange fun _ => noSpace other
  · rcases taken with sealed | ⟨stops, read⟩
    · exact sealed.again _
    · exact read.again _ (follows_closing hlast mark stops other)

theorem attributeSelector_sealed {pos : Nat} {text : List Char} {s : Scan Simple}
    (h : attributeSelector pos text = .ok s) :
    ∃ front rest, text = front ++ rest ∧ IsSealed (attributeSelector pos) front s := by
  unfold attributeSelector at h
  obtain ⟨name, named, h⟩ := bind_eq_ok h
  obtain ⟨test, tested, h⟩ := bind_eq_ok h
  obtain ⟨before, text, rfl, hbefore, size, -⟩ := spaces_form text
  rw [size, List.drop_left] at named
  obtain ⟨word, text, rfl, begins, -, -, read⟩ := ident_local named
  simp only [size, read.size, ← List.drop_drop, List.drop_left] at tested h
  obtain ⟨between, text, rfl, hbetween, size', -⟩ := spaces_form text
  simp only [size', List.drop_left] at tested h
  obtain ⟨sign, text, rfl, stops, noSpace, signed⟩ := attributeTest_sealed tested
  simp only [signed.size, List.drop_left] at h
  have first : ∀ other, spaces (before ++ (word ++ (between ++ (sign ++ other)))) = before.length :=
    fun other => spaces_append hbefore (begins.stopsAtSpace _)
  have second : ∀ other, spaces (between ++ (sign ++ other)) = between.length :=
    fun other => spaces_append hbetween (noSpace other)
  have again : ∀ other, ident .attributeName (pos + before.length) (word ++ (between ++ (sign ++ other))) = .ok name := by
    intro other
    refine read.again _ ⟨hbetween.stopsAt (fun _ => not_extendsName_of_isSpace) (stops other), fun _ space => ?_⟩
    exact space.exchange fun _ => noSpace other
  cases kind : test.value with
  | none =>
      rw [kind] at h
      obtain rfl := Except.ok.inj h
      refine ⟨before ++ (word ++ (between ++ sign)), text, by simp, by simp [Nat.add_assoc], fun other => ?_⟩
      simp only [attributeSelector, List.append_assoc, first other, List.drop_left, again other, bind, Except.bind,
        read.size, ← List.drop_drop, second other, signed.again other, kind, signed.size]
      rfl
  | some sort =>
      rw [kind] at h
      dsimp only at h
      obtain ⟨value, valued, h⟩ := bind_eq_ok h
      obtain ⟨ending, ended, h⟩ := bind_eq_ok h
      obtain rfl := Except.ok.inj h
      simp only [List.drop_drop] at ended
      obtain ⟨gap, letters, last, close, rest, rfl, valueSize, endSize, form⟩ := value_sealed valued ended
      have gapSize := (form rest).gap
      have lastSize := (form rest).last
      simp only [gapSize, valueSize, lastSize, ← List.drop_drop, List.drop_left] at form ⊢
      refine ⟨before ++ (word ++ (between ++ (sign ++ (gap ++ (letters ++ (last ++ close)))))), rest, by simp,
        by simp [endSize, Nat.add_assoc], fun other => ?_⟩
      simp only [attributeSelector, List.append_assoc, first, List.drop_left, again, bind, Except.bind, read.size,
        ← List.drop_drop, second, signed.again, kind, signed.size, (form other).gap, (form other).value, valueSize,
        (form other).last, (form other).ending]
      rfl

end StyleAudit.Selector
