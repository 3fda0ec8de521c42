import StyleAudit.Proofs.ByteCuts
/-!
Searches for ASCII. What a rule looks for is written in ASCII, and no byte of another character looks like it: so the bytes
of a text are searched as its characters are, and what is found differs only in how its size is counted.
-/
namespace StyleAudit.Selector

/-! What is written in ASCII. -/

theorem ascii_of_all {word : List Char} (h : (word.all fun c => decide (c.toNat < 128)) = true) :
    ∀ c ∈ word, c.toNat < 128 := by
  intro c mem
  exact of_decide_eq_true (List.all_eq_true.mp h c mem)

theorem toLower_past {c : Char} (past : ¬ c.toNat < 128) : c.toLower = c := toLower_eq_self (by omega)

theorem ascii_toLower {c : Char} (ascii : c.toNat < 128) : c.toLower.toNat < 128 := by
  by_cases upper : 65 ≤ c.toNat ∧ c.toNat ≤ 90
  · rw [toNat_toLower upper]
    omega
  · rwa [toLower_eq_self upper]

theorem ascii_of_toLower {c : Char} (ascii : c.toLower.toNat < 128) : c.toNat < 128 := by
  by_contra past
  rw [toLower_past past] at ascii
  exact past ascii

theorem ascii_of_isWordChar {c : Char} (h : isWordChar c = true) : c.toNat < 128 := by
  rw [isWordChar_iff] at h
  omega

theorem bytes_front {word : List Char} (h : ∀ c ∈ word, c.toNat < 128) (rest : List Char) :
    bytes (word ++ rest) = word ++ bytes rest := by
  rw [bytes_append, bytes_ascii h]

theorem byteOffset_front {word : List Char} (h : ∀ c ∈ word, c.toNat < 128) (rest : List Char) (n : Nat) :
    byteOffset (word ++ rest) (word.length + n) = word.length + byteOffset rest n := by
  rw [byteOffset_append, bytes_ascii h]

/-- Characters of ASCII in front of a text are its first bytes. -/
theorem take_ascii {word : List Char} (h : ∀ c ∈ word, c.toNat < 128) (rest : List Char) {n : Nat} (le : n ≤ word.length) :
    bytes ((word ++ rest).take n) = (word ++ rest).take n ∧ byteOffset (word ++ rest) n = n := by
  have ascii : ∀ c ∈ word.take n, c.toNat < 128 := fun c mem => h c (List.mem_of_mem_take mem)
  rw [byteOffset, List.take_append_of_le_length le, bytes_ascii ascii, List.length_take_of_le le]
  exact ⟨rfl, rfl⟩

/-- A character of ASCII begins the bytes of a text if it begins the text. -/
theorem head?_bytes {c : Char} (ascii : c.toNat < 128) (text : List Char) :
    (bytes text).head? = some c ↔ text.head? = some c := by
  cases text with
  | nil => rw [bytes_nil]
  | cons d rest =>
      rcases bytes_begin d rest with ⟨ascii', same⟩ | ⟨past', b, more, first, same⟩
      · rw [same, List.head?_cons, List.head?_cons]
      · rw [same, List.head?_cons, List.head?_cons, Option.some_inj, Option.some_inj]
        constructor
        · rintro rfl
          omega
        · rintro rfl
          exact absurd ascii past'

theorem beginsWith_cons_cons (s c : Char) (start rest : List Char) :
    beginsWith (s :: start) (c :: rest) = (c.toLower == s.toLower && beginsWith start rest) := by
  simp [beginsWith, List.cons_beq_cons]

theorem beginsWith_past {s c : Char} (ascii : s.toNat < 128) (past : ¬ c.toNat < 128) (start rest : List Char) :
    beginsWith (s :: start) (c :: rest) = false := by
  rw [beginsWith_cons_cons, toLower_past past, Bool.and_eq_false_iff, beq_eq_false_iff_ne]
  refine .inl ?_
  rintro rfl
  exact past (ascii_toLower ascii)

theorem beginsWith_bytes {start : List Char} (h : ∀ c ∈ start, c.toNat < 128) (text : List Char) :
    beginsWith start (bytes text) = beginsWith start text := by
  induction start generalizing text with
  | nil => rfl
  | cons s start ih =>
      obtain ⟨ascii, later⟩ := List.forall_mem_cons.mp h
      cases text with
      | nil => rw [bytes_nil]
      | cons c rest =>
          rcases bytes_begin c rest with ⟨ascii', same⟩ | ⟨past', b, more, first, same⟩
          · rw [same, beginsWith_cons_cons, beginsWith_cons_cons, ih later]
          · rw [same, beginsWith_past ascii first, beginsWith_past ascii past']

/-- What begins with ASCII has it in front, in any case. -/
theorem beginsWith_front {start text : List Char} (ascii : ∀ c ∈ start, c.toNat < 128) (h : beginsWith start text = true) :
    ∃ word rest, text = word ++ rest ∧ word.length = start.length ∧ ∀ c ∈ word, c.toNat < 128 := by
  obtain ⟨word, rest, same, length, lowered⟩ := beginsWith_split h
  refine ⟨word, rest, same, length, ?_⟩
  intro c mem
  have part : c.toLower ∈ start.map Char.toLower := lowered ▸ List.mem_map_of_mem mem
  obtain ⟨d, there, same⟩ := List.mem_map.mp part
  apply ascii_of_toLower
  rw [← same]
  exact ascii_toLower (ascii d there)

/-! Arguments. -/

theorem plain_encoded {c : Char} (past : 128 ≤ c.toNat) : IsClosed (encoded c) ∧ IsClosed [c] := by
  have plain {b : Char} (past : 128 ≤ b.toNat) : b ≠ '(' ∧ b ≠ ')' := by
    constructor
    · rintro rfl
      exact absurd past (by decide)
    · rintro rfl
      exact absurd past (by decide)
  exact ⟨.plain fun b mem => plain ((isPast_encoded past).all b mem), .plain (List.forall_mem_singleton.mpr (plain past))⟩

theorem closingSize_bytes (depth : Nat) (text : List Char) :
    closingSize depth (bytes text) = (closingSize depth text).map (byteOffset text) := by
  induction text generalizing depth with
  | nil => rw [bytes_nil]; rfl
  | cons c rest ih =>
      have step (depth : Nat) : (closingSize depth (bytes rest)).map ((encoded c).length + ·) =
          ((closingSize depth rest).map (1 + ·)).map (byteOffset (c :: rest)) := by
        rw [ih, Option.map_map, Option.map_map]
        congr 1
        funext n
        rw [Function.comp_apply, Function.comp_apply, Nat.add_comm 1, byteOffset_succ]
      by_cases ascii : c.toNat < 128
      · rw [encoded_ascii ascii] at step
        rw [bytes_cons_ascii ascii, closingSize.eq_def, closingSize.eq_def depth (c :: rest)]
        dsimp only
        split
        · exact step (depth + 1)
        split
        · cases depth with
          | zero =>
              rw [Option.map_some, byteOffset_succ, byteOffset_zero, encoded_ascii ascii]
              rfl
          | succ depth => exact step depth
        · exact step depth
      · obtain ⟨closed, closed'⟩ := plain_encoded (Nat.le_of_not_lt ascii)
        rw [bytes_cons, closed, step]
        exact congrArg (Option.map _) (closed' depth rest).symm

theorem argument?_other {text : List Char} (h : text.head? ≠ some '(') : argument? text = none := by
  unfold argument?
  split
  · exact absurd rfl h
  · rfl

theorem argument?_bytes (text : List Char) : argument? (bytes text) = (argument? text).map (byteOffset text) := by
  by_cases opening : text.head? = some '('
  · obtain ⟨rest, rfl⟩ := List.head?_eq_some_iff.mp opening
    rw [bytes_cons_ascii (by decide), argument?, argument?, closingSize_bytes, Option.map_map, Option.map_map]
    congr 1
    funext n
    rw [Function.comp_apply, Function.comp_apply, Nat.add_comm 1 n, byteOffset_succ, encoded_ascii (by decide)]
    rfl
  · have opening' : (bytes text).head? ≠ some '(' := fun same => opening ((head?_bytes (by decide) text).mp same)
    rw [argument?_other opening, argument?_other opening']
    rfl

/-! Names. -/

section
variable {colons : Colons} {names : List PseudoName} {replace : List Char → Option (List Char)}
variable {previous previous' : Option Char}

theorem ends_past {c : Char} (past : ¬ c.toNat < 128) : (isWordChar c || c == '(') = false := by
  rw [Bool.or_eq_false_iff, beq_eq_false_iff_ne, Bool.eq_false_iff]
  constructor
  · intro letter
    exact past (ascii_of_isWordChar letter)
  · rintro rfl
    exact past (by decide)

theorem size?_bytes {n : PseudoName} (hn : ∀ c ∈ n.name.toList, c.toNat < 128) (text : List Char) :
    n.size? (bytes text) = (n.size? text).map (byteOffset text) := by
  rw [PseudoName.size?, PseudoName.size?, beginsWith_bytes hn]
  split
  · next begins =>
      obtain ⟨word, rest, rfl, length, ascii⟩ := beginsWith_front hn begins
      rw [String.length_toList] at length
      rw [bytes_front ascii, ← length]
      simp only [List.drop_left]
      have whole := byteOffset_front ascii rest 0
      rw [byteOffset_zero, Nat.add_zero] at whole
      cases n.functional with
      | true =>
          rw [if_pos rfl, if_pos rfl, argument?_bytes, Option.map_map, Option.map_map]
          congr 1
          funext k
          rw [Function.comp_apply, Function.comp_apply, byteOffset_front ascii]
      | false =>
          rw [if_neg Bool.false_ne_true, if_neg Bool.false_ne_true]
          cases rest with
          | nil =>
              rw [bytes_nil]
              exact congrArg some whole.symm
          | cons c rest =>
              rcases bytes_begin c rest with ⟨ascii', same⟩ | ⟨past', b, more, first, same⟩
              · rw [same]
                dsimp only
                split
                · rfl
                · exact congrArg some whole.symm
              · rw [same]
                dsimp only
                rw [ends_past past', ends_past first]
                exact congrArg some whole.symm
  · rfl

theorem find?_bytes (hn : IsTable names) (text : List Char) :
    PseudoName.find? names (bytes text) = (PseudoName.find? names text).map (byteOffset text) := by
  induction names with
  | nil => rfl
  | cons n names ih =>
      have ascii : ∀ c ∈ n.name.toList, c.toNat < 128 := fun c mem => ascii_of_isWordChar (hn n List.mem_cons_self c mem).1
      have others := ih fun m mem => hn m (List.mem_cons_of_mem n mem)
      rw [PseudoName.find?] at others ⊢
      rw [List.findSome?_cons, size?_bytes ascii, PseudoName.find?, List.findSome?_cons]
      cases n.size? text with
      | none => exact others
      | some size => simp only [Option.map_some]

theorem ascii_colons (colons : Colons) : ∀ c ∈ colons.text, c.toNat < 128 := by
  cases colons <;> simp [Colons.text]

theorem behind?_other {text : List Char} (h : text.head? ≠ some ':') : colons.behind? previous text = none := by
  unfold Colons.behind?
  split
  · exact absurd rfl h
  · rfl
  · rfl
  · exact absurd rfl h
  · rfl

theorem behind?_single {rest : List Char} (h : rest.head? ≠ some ':') : colons.behind? previous (':' :: rest) =
    if colons = .one ∧ previous ≠ some ':' then some rest else none := by
  cases colons with
  | two =>
      unfold Colons.behind?
      split
      · next same =>
          obtain ⟨-, rfl⟩ := List.cons.inj same
          exact absurd rfl h
      · rfl
      all_goals contradiction
  | one =>
      unfold Colons.behind?
      split
      · contradiction
      · contradiction
      · next same =>
          obtain ⟨-, rfl⟩ := List.cons.inj same
          exact absurd rfl h
      · next same =>
          obtain ⟨-, rfl⟩ := List.cons.inj same
          by_cases colon : previous = some ':'
          · simp [colon]
          · simp [colon]
      · next other => exact absurd rfl (other rest)

theorem behind?_bytes (text : List Char) (colon : previous' = some ':' ↔ previous = some ':') :
    colons.behind? previous' (bytes text) = (colons.behind? previous text).map bytes := by
  by_cases first : text.head? = some ':'
  · obtain ⟨rest, rfl⟩ := List.head?_eq_some_iff.mp first
    rw [bytes_cons_ascii (by decide)]
    by_cases second : rest.head? = some ':'
    · obtain ⟨rest, rfl⟩ := List.head?_eq_some_iff.mp second
      rw [bytes_cons_ascii (by decide)]
      cases colons <;> rfl
    · have second' : (bytes rest).head? ≠ some ':' := fun same => second ((head?_bytes (by decide) rest).mp same)
      have other : previous' ≠ some ':' ↔ previous ≠ some ':' := not_congr colon
      rw [behind?_single second, behind?_single second']
      simp only [other]
      split <;> rfl
  · have first' : (bytes text).head? ≠ some ':' := fun same => first ((head?_bytes (by decide) text).mp same)
    rw [behind?_other first, behind?_other first']
    rfl

end

/-! A vendor's mark. -/

theorem takeWhile_bytes {p : Char → Bool} (hp : ∀ c, p c = true → c.toNat < 128) (text : List Char) :
    (bytes text).takeWhile p = text.takeWhile p := by
  induction text with
  | nil => rw [bytes_nil]
  | cons c rest ih =>
      rcases bytes_begin c rest with ⟨ascii, same⟩ | ⟨past, b, more, first, same⟩
      · rw [same, List.takeWhile_cons, List.takeWhile_cons, ih]
      · have other {d : Char} (past : ¬ d.toNat < 128) : ¬ p d = true := fun holds => past (hp d holds)
        rw [same, List.takeWhile_cons_of_neg (other first), List.takeWhile_cons_of_neg (other past)]

theorem vendorMarks_ascii : ∀ mark ∈ vendorMarks, ∀ c ∈ mark.toList, c.toNat < 128 := by
  have checked : (vendorMarks.all fun mark => mark.toList.all fun c => decide (c.toNat < 128)) = true := by decide +kernel
  intro mark known
  exact ascii_of_all (List.all_eq_true.mp checked mark known)

theorem isRun_ascii {c : Char} (h : (c.isAlphanum || c == '-') = true) : c.toNat < 128 := by
  apply ascii_of_isWordChar
  rw [isWordChar, h, Bool.true_or]

theorem find?_marks (text : List Char) : (vendorMarks.find? fun mark => beginsWith mark.toList (bytes text)) =
    vendorMarks.find? fun mark => beginsWith mark.toList text :=
  List.find?_congr fun mark known => beginsWith_bytes (vendorMarks_ascii mark known) text

/-! Places. -/

section
variable {p : List Char → Bool}

theorem places_idle {front : List Char} (idle : ∀ b ∈ front, ∀ rest, p (b :: rest) = false) (position : Nat)
    (rest : List Char) : places p position (front ++ rest) = places p (position + front.length) rest := by
  induction front generalizing position with
  | nil => rfl
  | cons b front ih =>
      obtain ⟨here, later⟩ := List.forall_mem_cons.mp idle
      rw [List.cons_append, places, here, if_neg Bool.false_ne_true, ih later, List.length_cons, Nat.add_right_comm,
        Nat.add_assoc]

/-- What holds of the bytes of a text as it does of the text, and of no byte past ASCII, holds at the same places. -/
theorem places_bytes (same : ∀ text, p (bytes text) = p text)
    (past : ∀ b rest, ¬ b.toNat < 128 → p (b :: rest) = false) (front text : List Char) :
    places p (bytes front).length (bytes text) =
      (places p front.length text).map fun found => (byteOffset (front ++ text) found.1, bytes found.2) := by
  induction text generalizing front with
  | nil => rw [bytes_nil]; rfl
  | cons c rest ih =>
      have next := ih (front ++ [c])
      rw [bytes_append, bytes_cons c [], bytes_nil, List.append_nil, List.length_append, List.length_append,
        List.length_singleton, List.append_assoc, List.singleton_append] at next
      by_cases ascii : c.toNat < 128
      · have here := same (c :: rest)
        rw [encoded_ascii ascii, List.length_singleton] at next
        rw [bytes_cons_ascii ascii] at here ⊢
        rw [places, places, here, next]
        split
        · rw [List.map_cons, byteOffset_left, bytes_cons_ascii ascii]
        · rfl
      · have all := (isPast_encoded (Nat.le_of_not_lt ascii)).all
        rw [bytes_cons, places_idle (fun b mem rest => past b rest (Nat.not_lt.mpr (all b mem))), next, places,
          past c rest ascii, if_neg Bool.false_ne_true]

end

theorem isPrefixOf_past {s c : Char} (ascii : s.toNat < 128) (past : ¬ c.toNat < 128) (part rest : List Char) :
    (s :: part).isPrefixOf (c :: rest) = false := by
  rw [List.isPrefixOf_cons_cons, Bool.and_eq_false_iff, beq_eq_false_iff_ne]
  refine .inl ?_
  rintro rfl
  exact past ascii

theorem isPrefixOf_bytes {part : List Char} (h : ∀ c ∈ part, c.toNat < 128) (text : List Char) :
    part.isPrefixOf (bytes text) = part.isPrefixOf text := by
  induction part generalizing text with
  | nil => rw [List.isPrefixOf_nil_left, List.isPrefixOf_nil_left]
  | cons s part ih =>
      obtain ⟨ascii, later⟩ := List.forall_mem_cons.mp h
      cases text with
      | nil => rw [bytes_nil]
      | cons c rest =>
          rcases bytes_begin c rest with ⟨ascii', same⟩ | ⟨past', b, more, first, same⟩
          · rw [same, List.isPrefixOf_cons_cons, List.isPrefixOf_cons_cons, ih later]
          · rw [same, isPrefixOf_past ascii first, isPrefixOf_past ascii past']

theorem lastIndex?_bytes {s : Char} {part : List Char} (h : ∀ c ∈ s :: part, c.toNat < 128) (text : List Char) :
    lastIndex? (s :: part) (bytes text) = (lastIndex? (s :: part) text).map (byteOffset text) := by
  have found := places_bytes (isPrefixOf_bytes h)
    (fun b rest past => isPrefixOf_past (h s List.mem_cons_self) past part rest) [] text
  rw [bytes_nil] at found
  rw [lastIndex?, lastIndex?]
  simp only [List.length_nil, List.nil_append] at found
  rw [found, List.getLast?_map, Option.map_map, Option.map_map]
  rfl

/-! Negations and positions. -/

theorem negationMark_ascii : ∀ c ∈ ":not(".toList, c.toNat < 128 := ascii_of_all (by decide +kernel)

theorem isQuote_past {c : Char} (past : ¬ c.toNat < 128) : (c == '"' || c == '\'') = false := by
  rw [Bool.or_eq_false_iff, beq_eq_false_iff_ne, beq_eq_false_iff_ne]
  constructor
  · rintro rfl
    exact past (by decide)
  · rintro rfl
    exact past (by decide)

theorem startsQuotedNegation_bytes (text : List Char) : startsQuotedNegation (bytes text) = startsQuotedNegation text := by
  rw [startsQuotedNegation, startsQuotedNegation, beginsWith_bytes negationMark_ascii]
  cases begins : beginsWith ":not(".toList text with
  | false => rw [Bool.false_and, Bool.false_and]
  | true =>
      obtain ⟨word, rest, rfl, length, ascii⟩ := beginsWith_front negationMark_ascii begins
      have five : word.length = 5 := length
      rw [bytes_front ascii, ← five, List.drop_left, List.drop_left]
      cases rest with
      | nil => rw [bytes_nil]
      | cons c rest =>
          rcases bytes_begin c rest with ⟨ascii', same⟩ | ⟨past', b, more, first, same⟩
          · rw [same]
          · rw [same]
            dsimp only
            rw [isQuote_past first, isQuote_past past']

theorem startsQuotedNegation_past (b : Char) (rest : List Char) (past : ¬ b.toNat < 128) :
    startsQuotedNegation (b :: rest) = false := by
  have mark : ":not(".toList = ':' :: "not(".toList := rfl
  rw [startsQuotedNegation, mark, beginsWith_past (by decide) past, Bool.false_and]

/-- A negation up to the quote that begins its argument is in ASCII. -/
theorem startsQuotedNegation_split {text : List Char} (h : startsQuotedNegation text = true) :
    ∃ word quote behind, text = word ++ [quote] ++ behind ∧ word.length = 5 ∧ ∀ c ∈ word ++ [quote], c.toNat < 128 := by
  obtain ⟨begins, quoted⟩ := (Bool.and_eq_true _ _).mp h
  obtain ⟨word, rest, rfl, length, ascii⟩ := beginsWith_front negationMark_ascii begins
  have five : word.length = 5 := length
  rw [← five, List.drop_left] at quoted
  cases rest with
  | nil => cases quoted
  | cons quote behind =>
      refine ⟨word, quote, behind, by rw [List.append_assoc, List.singleton_append], five, ?_⟩
      refine List.forall_mem_append.mpr ⟨ascii, List.forall_mem_singleton.mpr ?_⟩
      by_contra past
      dsimp only at quoted
      rw [isQuote_past past] at quoted
      cases quoted

theorem positionMarks_ascii {name : String} (known : name ∈ positionNames) :
    ∀ c ∈ ':' :: (name.toList ++ ['(']), c.toNat < 128 := by
  refine List.forall_mem_cons.mpr ⟨by decide, List.forall_mem_append.mpr ⟨?_, List.forall_mem_singleton.mpr (by decide)⟩⟩
  intro c mem
  exact ascii_of_isWordChar ((positionNames_words name known).2 c mem).1

theorem selectorPosition?_bytes (text : List Char) : selectorPosition? (bytes text) = selectorPosition? text := by
  have names : (positionNames.find? fun name => beginsWith (':' :: (name.toList ++ ['('])) (bytes text)) =
      positionNames.find? fun name => beginsWith (':' :: (name.toList ++ ['('])) text :=
    List.find?_congr fun name known => beginsWith_bytes (positionMarks_ascii known) text
  rw [selectorPosition?, selectorPosition?, names]
  cases found : positionNames.find? fun name => beginsWith (':' :: (name.toList ++ ['('])) text with
  | none => rfl
  | some name =>
      have begins := List.find?_some (p := fun name => beginsWith (':' :: (String.toList name ++ ['('])) text) found
      obtain ⟨word, rest, rfl, length, ascii⟩ :=
        beginsWith_front (positionMarks_ascii (List.mem_of_find?_eq_some found)) begins
      rw [List.length_cons, List.length_append, List.length_singleton, String.length_toList] at length
      have written (rest : List Char) : ((word ++ rest).drop 1).take name.length = (word.drop 1).take name.length := by
        rw [List.drop_append_of_le_length (by omega), List.take_append_of_le_length (by rw [List.length_drop]; omega)]
      dsimp only
      rw [bytes_front ascii, written, written, show name.length + 2 = word.length from length.symm, List.drop_left,
        List.drop_left]
      cases rest with
      | nil => rw [bytes_nil]
      | cons c rest =>
          rcases bytes_begin c rest with ⟨ascii', same⟩ | ⟨past', b, more, first, same⟩
          · rw [same]
          · have other {d : Char} (past : ¬ d.toNat < 128) : ¬ (d = '.' ∨ d = '#') := by
              rintro (rfl | rfl)
              · exact past (by decide)
              · exact past (by decide)
            rw [same]
            dsimp only
            rw [if_neg (other first), if_neg (other past')]

theorem selectorPosition?_past (b : Char) (rest : List Char) (past : ¬ b.toNat < 128) :
    selectorPosition? (b :: rest) = none := by
  cases found : selectorPosition? (b :: rest) with
  | none => rfl
  | some name =>
      obtain ⟨mark, behind, same, -⟩ := selectorPosition?_some found
      obtain ⟨rfl, -⟩ := List.cons.inj same
      exact absurd (by decide) past

theorem head?_places_bytes {p : List Char → Bool} (same : ∀ text, p (bytes text) = p text)
    (past : ∀ b rest, ¬ b.toNat < 128 → p (b :: rest) = false) (text : List Char) :
    (places p 0 (bytes text)).head? =
      ((places p 0 text).head?).map fun found => (byteOffset text found.1, bytes found.2) := by
  have whole := places_bytes same past [] text
  rw [bytes_nil] at whole
  exact (congrArg List.head? whole).trans List.head?_map

end StyleAudit.Selector
