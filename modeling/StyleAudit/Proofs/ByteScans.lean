import StyleAudit.Proofs.AsciiSearches
/-!
Rules that look at bytes. A search of the bytes of a text finds what a search of its characters finds, and never cuts a
character apart: so the edits of a repair are well formed, whatever the text is.
-/
namespace StyleAudit.Selector

/-! Searches of bytes. -/

/-- A local rule on bytes. It gives nothing at all if it cuts a character apart. -/
abbrev ByteRule := Option Char → List Char → Option (Option (Nat × List Char))

/-- The edits of a rule on bytes, from left to right as those of a rule on characters. -/
def ByteRule.editsFrom? (rule : ByteRule) (skip position : Nat) (previous : Option Char) : List Char → Option (List Edit)
  | [] => some []
  | c :: rest =>
    match skip with
    | more + 1 => rule.editsFrom? more (position + 1) (some c) rest
    | 0 =>
      match rule previous (c :: rest) with
      | none => none
      | some none => rule.editsFrom? 0 (position + 1) (some c) rest
      | some (some (size, replacement)) =>
        (rule.editsFrom? (size - 1) (position + 1) (some c) rest).map (⟨position, size, replacement⟩ :: ·)

def ByteRule.edits? (rule : ByteRule) (text : List Char) : Option (List Edit) := rule.editsFrom? 0 0 none text

/-- A search for pseudo names cuts the text behind the colons, and at the end of what it has found. -/
def pseudoScan (colons : Colons) (names : List PseudoName) (replace : List Char → Option (List Char)) : ByteRule :=
  fun previous text =>
    match colons.behind? previous text with
    | none => some none
    | some _ =>
      (slice? text colons.count text.length).bind fun rest =>
        match PseudoName.find? names rest with
        | none => some none
        | some size =>
          (slice? text 0 (colons.count + size)).map fun matched =>
            (replace (chars matched)).map fun replacement => (colons.count + size, bytes replacement)

/-- A search for a vendor's mark cuts the text behind it. -/
def vendorSizeScan (text : List Char) : Option (Option Nat) :=
  match vendorMarks.find? fun mark => beginsWith mark.toList text with
  | none => some none
  | some mark =>
    (slice? text mark.length text.length).map fun rest =>
      let word := (rest.takeWhile fun c => c.isAlphanum || c == '-').length
      some (mark.length + word + (argument? (rest.drop word)).getD 0)

def vendorScan : ByteRule := fun _ text =>
  match text with
  | ':' :: ':' :: rest => (vendorSizeScan (':' :: rest)).map (·.map (1 + ·, []))
  | _ => (vendorSizeScan text).map (·.map (·, []))

/-- A search for zero-width characters goes from character to character. -/
def widthScan (text : List Char) : Option (List Edit) :=
  some ((zeroWidth.edits (chars text)).map (Edit.inBytes (chars text)))

/-- A search for a quoted negation cuts the text behind the first quote, at the last one, and behind the name. -/
def negationScan (text : List Char) : Option (List Edit) :=
  match (places startsQuotedNegation 0 text).head? with
  | none => some []
  | some (start, found) =>
    (slice? found 6 found.length).bind fun inner =>
      match lastIndex? ((found.drop 5).take 1 ++ [')']) inner with
      | none | some 0 => some []
      | some size =>
        (slice? found 0 4).bind fun name =>
          (slice? found 6 (6 + size)).map fun inner => [⟨start, 6 + size + 2, name ++ '(' :: (inner ++ [')'])⟩]

/-- A search for a class or an id as a position cuts the text around the name. -/
def positionScan (text : List Char) : Option (List Edit) :=
  match (places (fun rest => (selectorPosition? rest).isSome) 0 text).head? with
  | none => some []
  | some (start, found) =>
    match lastIndex? [')'] found with
    | none => some []
    | some close =>
      (slice? found 1 (1 + ((selectorPosition? found).getD []).length)).map fun name =>
        [⟨start, close + 1, ':' :: (name ++ "(0n)".toList)⟩]

/-- How a search of characters is made as one of bytes. -/
inductive ScansBytes : (List Char → List Edit) → (List Char → Option (List Edit)) → Prop
  | pseudo {colons : Colons} {names : List PseudoName} {replace : List Char → Option (List Char)} :
      ScansBytes (pseudoRule colons names replace).edits (pseudoScan colons names replace).edits?
  | width : ScansBytes zeroWidth.edits widthScan
  | negation : ScansBytes quotedNegation negationScan
  | position : ScansBytes selectorPosition positionScan
  | vendor : ScansBytes vendorPseudo.edits vendorScan.edits?

/-! Rules that go from left to right. -/

/-- A rule on bytes does to the bytes of a text what a rule on characters does to the text, and acts only at a colon. -/
structure Mirrors (scan : ByteRule) (rule : LocalRule) : Prop where
  idle : ∀ previous b rest, b ≠ ':' → scan previous (b :: rest) = some none
  acts : ∀ previous previous' text, (previous' = some ':' ↔ previous = some ':') →
    scan previous' (bytes text) = some ((rule previous text).map fun found => (byteOffset text found.1, bytes found.2))

theorem no_colon_encoded {c : Char} (other : c ≠ ':') : ∀ b ∈ encoded c, b ≠ ':' := by
  by_cases ascii : c.toNat < 128
  · rw [encoded_ascii ascii]
    exact List.forall_mem_singleton.mpr other
  · rintro b mem rfl
    exact absurd ((isPast_encoded (Nat.le_of_not_lt ascii)).all _ mem) (by decide)

/-- The last byte in front is a colon if the last character in front is one. -/
theorem getLast?_encoded (c : Char) (previous : Option Char) :
    (encoded c).getLast?.or previous = some ':' ↔ c = ':' := by
  by_cases ascii : c.toNat < 128
  · rw [encoded_ascii ascii, List.getLast?_singleton, Option.some_or, Option.some_inj]
  · have past := isPast_encoded (Nat.le_of_not_lt ascii)
    rw [List.getLast?_eq_some_getLast past.nonempty, Option.some_or, Option.some_inj]
    have last := past.all _ (List.getLast_mem past.nonempty)
    constructor
    · intro same
      rw [same] at last
      exact absurd last (by decide)
    · rintro rfl
      exact absurd (by decide) ascii

section
variable {scan : ByteRule} {rule : LocalRule}

/-- The bytes of a range are passed over. -/
theorem editsFrom?_skip (scan : ByteRule) (front rest : List Char) (more position : Nat) (previous : Option Char) :
    scan.editsFrom? (front.length + more) position previous (front ++ rest) =
      scan.editsFrom? more (position + front.length) (front.getLast?.or previous) rest := by
  induction front generalizing position previous with
  | nil => simp
  | cons c front ih =>
      rw [List.length_cons, Nat.add_right_comm, List.cons_append, ByteRule.editsFrom?, ih, List.getLast?_cons]
      cases front.getLast? <;> simp [Nat.add_assoc, Nat.add_comm 1]

/-- A rule that acts only at colons passes over other bytes. -/
theorem Mirrors.editsFrom?_idle (h : Mirrors scan rule) {front : List Char} (other : ∀ b ∈ front, b ≠ ':')
    (rest : List Char) (position : Nat) (previous : Option Char) : scan.editsFrom? 0 position previous (front ++ rest) =
      scan.editsFrom? 0 (position + front.length) (front.getLast?.or previous) rest := by
  induction front generalizing position previous with
  | nil => simp
  | cons c front ih =>
      obtain ⟨here, later⟩ := List.forall_mem_cons.mp other
      rw [List.cons_append, ByteRule.editsFrom?, h.idle previous c _ here]
      dsimp only
      rw [ih later, List.getLast?_cons, List.length_cons]
      cases front.getLast? <;> simp [Nat.add_assoc, Nat.add_comm 1]

theorem Mirrors.editsFrom?_bytes (h : Mirrors scan rule) (front text : List Char) (skip : Nat)
    {previous previous' : Option Char} (colon : previous' = some ':' ↔ previous = some ':') :
    scan.editsFrom? (byteOffset text skip) (bytes front).length previous' (bytes text) =
      some ((rule.editsFrom skip front.length previous text).map (Edit.inBytes (front ++ text))) := by
  induction text generalizing front skip previous previous' with
  | nil =>
      rw [bytes_nil]
      rfl
  | cons c rest ih =>
      have next (skip : Nat) : scan.editsFrom? (byteOffset rest skip) ((bytes front).length + (encoded c).length)
          ((encoded c).getLast?.or previous') (bytes rest) =
            some ((rule.editsFrom skip (front.length + 1) (some c) rest).map (Edit.inBytes (front ++ c :: rest))) := by
        have colon' : (encoded c).getLast?.or previous' = some ':' ↔ some c = some ':' :=
          (getLast?_encoded c previous').trans Option.some_inj.symm
        have later := ih (front ++ [c]) skip colon'
        rwa [bytes_append, bytes_cons, bytes_nil, List.append_nil, List.length_append, List.length_append,
          List.length_singleton, List.append_assoc, List.singleton_append] at later
      cases skip with
      | succ more =>
          rw [byteOffset_succ, bytes_cons, editsFrom?_skip, next, LocalRule.editsFrom]
      | zero =>
          have acts := h.acts previous previous' (c :: rest) colon
          have behind := next 0
          rw [byteOffset_zero] at behind
          rw [byteOffset_zero, LocalRule.editsFrom]
          by_cases here : c = ':'
          · subst here
            rw [encoded_ascii (by decide), List.length_singleton, List.getLast?_singleton, Option.some_or] at next behind
            rw [bytes_cons_ascii (by decide)] at acts ⊢
            rw [ByteRule.editsFrom?, acts]
            cases rule previous (':' :: rest) with
            | none => exact behind
            | some found =>
                obtain ⟨size, replacement⟩ := found
                have left : byteOffset (':' :: rest) size - 1 = byteOffset rest (size - 1) := by
                  cases size with
                  | zero => rw [byteOffset_zero, byteOffset_zero]
                  | succ n =>
                      rw [byteOffset_succ, encoded_ascii (by decide), List.length_singleton, Nat.add_sub_cancel_left,
                        Nat.add_sub_cancel]
                have edit : Edit.inBytes (front ++ ':' :: rest) ⟨front.length, size, replacement⟩ =
                    ⟨(bytes front).length, byteOffset (':' :: rest) size, bytes replacement⟩ := by
                  rw [Edit.inBytes, byteOffset_left, List.drop_left]
                rw [Option.map_some]
                dsimp only
                rw [left, next, Option.map_some, List.map_cons, edit]
          · -- away from colons both rules pass over the character
            have idle : rule previous (c :: rest) = none := by
              obtain ⟨b, more, same⟩ := List.exists_cons_of_ne_nil (encoded_ne_nil c)
              have first := no_colon_encoded here b (same ▸ List.mem_cons_self)
              rw [bytes_cons, same, List.cons_append, h.idle _ _ _ first] at acts
              exact Option.map_eq_none_iff.mp (Option.some.inj acts).symm
            rw [bytes_cons, h.editsFrom?_idle (no_colon_encoded here), idle]
            exact behind

theorem Mirrors.edits?_bytes (h : Mirrors scan rule) (text : List Char) :
    scan.edits? (bytes text) = some ((rule.edits text).map (Edit.inBytes text)) := by
  have whole := h.editsFrom?_bytes [] text 0 (Iff.refl (none = some ':'))
  rwa [byteOffset_zero, bytes_nil] at whole

end

/-! Pseudos. -/

theorem mirrors_pseudo {colons : Colons} {names : List PseudoName} {replace : List Char → Option (List Char)}
    (hn : IsTable names) : Mirrors (pseudoScan colons names replace) (pseudoRule colons names replace) where
  idle previous b rest other := by
    have first : (b :: rest).head? ≠ some ':' := fun same => other (Option.some.inj same)
    rw [pseudoScan, behind?_other first]
  acts previous previous' text colon := by
    rw [pseudoScan, pseudoRule, behind?_bytes text colon]
    cases behind : colons.behind? previous text with
    | none => rfl
    | some rest =>
        have split := (behind?_some behind).1
        have offset (n : Nat) : byteOffset text (colons.count + n) = colons.count + byteOffset rest n := by
          rw [split, ← length_colons, byteOffset_front (ascii_colons colons)]
        have start := offset 0
        have after : text.drop colons.count = rest := by rw [split, ← length_colons, List.drop_left]
        have inside : colons.count ≤ text.length := by
          rw [split, ← length_colons, List.length_append]
          exact Nat.le_add_right _ _
        have cut := slice?_rest text inside
        rw [byteOffset_zero, Nat.add_zero] at start
        rw [start, after] at cut
        rw [Option.map_some]
        dsimp only
        rw [cut, Option.bind_some, find?_bytes hn]
        cases PseudoName.find? names rest with
        | none => rfl
        | some size =>
            have cut := slice?_bytes text (Nat.zero_le (colons.count + size))
            rw [byteOffset_zero, offset, List.drop_zero, Nat.sub_zero] at cut
            rw [Option.map_some]
            dsimp only
            rw [cut, Option.map_some, chars_bytes]
            cases replace (text.take (colons.count + size)) with
            | none => rfl
            | some replacement => exact congrArg (fun n => some (some (n, bytes replacement))) (offset size).symm

theorem vendorSizeScan_bytes (text : List Char) :
    vendorSizeScan (bytes text) = some ((vendorSize? text).map (byteOffset text)) := by
  rw [vendorSizeScan, vendorSize?, find?_marks]
  cases found : vendorMarks.find? fun mark => beginsWith mark.toList text with
  | none => rfl
  | some mark =>
      have ascii := vendorMarks_ascii mark (List.mem_of_find?_eq_some found)
      have begins := List.find?_some (p := fun mark => beginsWith (String.toList mark) text) found
      obtain ⟨word, rest, rfl, length, letters⟩ := beginsWith_front ascii begins
      rw [String.length_toList] at length
      have start := byteOffset_front letters rest 0
      have cut := slice?_rest (word ++ rest) (m := word.length) (by rw [List.length_append]; exact Nat.le_add_right _ _)
      rw [byteOffset_zero, Nat.add_zero] at start
      rw [start, List.drop_left] at cut
      have run := List.takeWhile_append_dropWhile (p := fun c => c.isAlphanum || c == '-') (l := rest)
      have chars : ∀ c ∈ rest.takeWhile fun c => c.isAlphanum || c == '-', c.toNat < 128 := by
        intro c mem
        have letter := List.mem_takeWhile_imp mem
        exact isRun_ascii letter
      dsimp only
      rw [← length, cut, Option.map_some, List.drop_left]
      rw [takeWhile_bytes fun c => isRun_ascii]
      generalize rest.takeWhile (fun c => c.isAlphanum || c == '-') = run' at *
      generalize rest.dropWhile (fun c => c.isAlphanum || c == '-') = behind at *
      subst run
      have size (n : Nat) : byteOffset (word ++ (run' ++ behind)) (word.length + run'.length + n) =
          word.length + run'.length + byteOffset behind n := by
        rw [Nat.add_assoc, byteOffset_front letters, byteOffset_front chars, Nat.add_assoc]
      have none := Option.getD_map (byteOffset behind) 0 (argument? behind)
      rw [byteOffset_zero] at none
      rw [bytes_front chars, List.drop_left, List.drop_left, argument?_bytes, Option.map_some, none, size]

theorem vendorScan_one {previous : Option Char} {text : List Char} (h : ∀ rest, text ≠ ':' :: ':' :: rest) :
    vendorScan previous text = (vendorSizeScan text).map (·.map (·, [])) := by
  unfold vendorScan
  split
  · exact absurd rfl (h _)
  · rfl

theorem vendorPseudo_one {previous : Option Char} {text : List Char} (h : ∀ rest, text ≠ ':' :: ':' :: rest) :
    vendorPseudo previous text = (vendorSize? text).map (·, []) := by
  unfold vendorPseudo
  split
  · exact absurd rfl (h _)
  · rfl

theorem mirrors_vendor : Mirrors vendorScan vendorPseudo where
  idle previous b rest other := by
    have single : ∀ rest', b :: rest ≠ ':' :: ':' :: rest' := by
      rintro rest' same
      exact other (List.cons.inj same).1
    rw [vendorScan_one single, vendorSizeScan]
    cases found : vendorMarks.find? fun mark => beginsWith mark.toList (b :: rest) with
    | none => rfl
    | some mark =>
        obtain ⟨word, behind, same, -⟩ := vendorMark_some found
        exact absurd (List.cons.inj same).1 other
  acts previous previous' text _ := by
    by_cases double : ∃ rest, text = ':' :: ':' :: rest
    · obtain ⟨rest, rfl⟩ := double
      rw [bytes_cons_ascii (by decide), bytes_cons_ascii (by decide), vendorScan, ← bytes_cons_ascii (by decide),
        vendorSizeScan_bytes, vendorPseudo]
      cases vendorSize? (':' :: rest) with
      | none => rfl
      | some size =>
          have offset := byteOffset_succ ':' (':' :: rest) size
          rw [encoded_ascii (by decide)] at offset
          simp only [Option.map_some, bytes_nil, Nat.add_comm 1 size, offset, List.length_singleton]
    · have single : ∀ rest, text ≠ ':' :: ':' :: rest := fun rest same => double ⟨rest, same⟩
      have single' : ∀ rest, bytes text ≠ ':' :: ':' :: rest := by
        intro rest same
        have first := (head?_bytes (c := ':') (by decide) text).mp (by rw [same]; rfl)
        obtain ⟨behind, rfl⟩ := List.head?_eq_some_iff.mp first
        rw [bytes_cons_ascii (by decide)] at same
        have second := (head?_bytes (c := ':') (by decide) behind).mp (by rw [(List.cons.inj same).2]; rfl)
        obtain ⟨more, rfl⟩ := List.head?_eq_some_iff.mp second
        exact single more rfl
      rw [vendorScan_one single', vendorPseudo_one single, vendorSizeScan_bytes]
      cases vendorSize? text with
      | none => rfl
      | some size => simp only [Option.map_some, bytes_nil]

/-! Rules that make one edit. -/

/-- What a search for a quoted negation sees where it has found one. -/
structure IsQuoted (found : List Char) (quote : Char) : Prop where
  ascii : quote.toNat < 128
  first : (found.drop 5).take 1 = [quote]
  firstByte : ((bytes found).drop 5).take 1 = [quote]
  name : slice? (bytes found) 0 4 = some (found.take 4) ∧ bytes (found.take 4) = found.take 4
  inner : slice? (bytes found) 6 (bytes found).length = some (bytes (found.drop 6))
  offset : ∀ n, byteOffset found (6 + n) = 6 + byteOffset (found.drop 6) n

theorem exists_isQuoted {found : List Char} (h : startsQuotedNegation found = true) : ∃ quote, IsQuoted found quote := by
  obtain ⟨word, quote, behind, rfl, five, ascii⟩ := startsQuotedNegation_split h
  have six : (word ++ [quote]).length = 6 := by rw [List.length_append, five]; rfl
  have quoted (rest : List Char) : ((word ++ [quote] ++ rest).drop 5).take 1 = [quote] := by
    rw [← five, List.append_assoc, List.drop_left]
    rfl
  have after : (word ++ [quote] ++ behind).drop 6 = behind := by rw [← six, List.drop_left]
  obtain ⟨-, inner⟩ := take_ascii ascii behind (Nat.le_of_eq six.symm)
  obtain ⟨name, end_⟩ := take_ascii ascii behind (n := 4) (by omega)
  refine ⟨quote, ascii quote (List.mem_append_right _ (List.mem_singleton_self _)), quoted behind, ?_, ⟨?_, name⟩, ?_, ?_⟩
  · rw [bytes_front ascii, quoted]
  · have cut := slice?_bytes (word ++ [quote] ++ behind) (Nat.zero_le 4)
    rw [byteOffset_zero, end_, List.drop_zero, Nat.sub_zero, name] at cut
    exact cut
  · have cut := slice?_rest (word ++ [quote] ++ behind) (m := 6) (by rw [List.length_append, six]; omega)
    rw [inner] at cut
    exact cut
  · intro n
    rw [after, ← six, byteOffset_front ascii]

theorem negationScan_bytes (text : List Char) :
    negationScan (bytes text) = some ((quotedNegation text).map (Edit.inBytes text)) := by
  rw [negationScan, quotedNegation, head?_places_bytes startsQuotedNegation_bytes startsQuotedNegation_past]
  cases first : (places startsQuotedNegation 0 text).head? with
  | none => rfl
  | some place =>
      obtain ⟨start, found⟩ := place
      obtain ⟨front, rfl, rfl, holds, -⟩ := places_head? first
      obtain ⟨quote, quoted⟩ := exists_isQuoted holds
      have marks : ∀ c ∈ [quote, ')'], c.toNat < 128 :=
        List.forall_mem_cons.mpr ⟨quoted.ascii, List.forall_mem_singleton.mpr (by decide)⟩
      rw [Option.map_some]
      dsimp only
      rw [quoted.inner, Option.bind_some, quoted.firstByte, quoted.first, List.singleton_append, lastIndex?_bytes marks]
      cases last : lastIndex? [quote, ')'] (found.drop 6) with
      | none => rfl
      | some size =>
          obtain ⟨inner, d, more, cut, ⟨behind, same⟩, rfl, -⟩ := lastIndex?_some last
          have closing : byteOffset (found.drop 6) (inner.length + 2) = (bytes inner).length + 2 := by
            rw [cut, ← same, byteOffset_append, take_ascii (n := 2) marks behind (Nat.le_refl 2) |>.2]
          have size : byteOffset (found.drop 6) inner.length = (bytes inner).length := by rw [cut, byteOffset_left]
          cases inner with
          | nil =>
              rw [Option.map_some, size, bytes_nil]
              rfl
          | cons c inner =>
              obtain ⟨n, visible⟩ : ∃ n, (bytes (c :: inner)).length = n + 1 :=
                Nat.exists_eq_add_one.mpr (List.length_pos_iff.mpr (bytes_ne_nil (List.cons_ne_nil c inner)))
              have cut' := slice?_bytes found (Nat.le_add_right 6 (c :: inner).length)
              rw [Nat.add_sub_cancel_left, quoted.offset, size] at cut'
              have six := quoted.offset 0
              rw [byteOffset_zero] at six
              rw [six] at cut'
              have edit : Edit.inBytes (front ++ found) ⟨0 + front.length, 6 + (c :: inner).length + 2,
                  found.take 4 ++ '(' :: ((found.drop 6).take (c :: inner).length ++ [')'])⟩ =
                    ⟨byteOffset (front ++ found) (0 + front.length), 6 + (bytes (c :: inner)).length + 2,
                      found.take 4 ++ '(' :: (bytes ((found.drop 6).take (c :: inner).length) ++ [')'])⟩ := by
                have inner_ := quoted.offset ((c :: inner).length + 2)
                rw [closing, ← Nat.add_assoc, ← Nat.add_assoc] at inner_
                rw [Edit.inBytes, Nat.zero_add, List.drop_left, inner_, bytes_append, quoted.name.2,
                  bytes_cons_ascii (c := '(') (by decide), bytes_append, bytes_cons_ascii (c := ')') (by decide), bytes_nil]
              have some_ : (c :: inner).length = inner.length + 1 := List.length_cons
              rw [Option.map_some, size, visible, some_]
              simp only
              rw [← visible, ← some_, quoted.name.1, Option.bind_some, cut', Option.map_some, List.map_singleton, edit]

/-- What a search for a class or an id as a position sees where it has found one. -/
theorem slice?_position {found word : List Char} (h : selectorPosition? found = some word) :
    slice? (bytes found) 1 (1 + word.length) = some word ∧ ∀ c ∈ word, c.toNat < 128 := by
  obtain ⟨mark, rest, rfl, known, -⟩ := selectorPosition?_some h
  have letters := (word_of_lower (List.mem_cons_of_mem _ (List.mem_append_right _ (List.mem_cons_of_mem _ known)))).2
  have ascii : ∀ c ∈ word, c.toNat < 128 := fun c mem => ascii_of_isWordChar (letters c mem)
  have front : ∀ c ∈ ':' :: word, c.toNat < 128 := List.forall_mem_cons.mpr ⟨by decide, ascii⟩
  have first := (take_ascii front ('(' :: mark :: rest) (n := 1) (by rw [List.length_cons]; omega)).2
  have last := (take_ascii front ('(' :: mark :: rest) (n := 1 + word.length) (by rw [List.length_cons]; omega)).2
  rw [List.cons_append] at first last
  have cut := slice?_bytes (':' :: (word ++ '(' :: mark :: rest)) (Nat.le_add_right 1 word.length)
  rw [first, last, Nat.add_sub_cancel_left, List.drop_succ_cons, List.drop_zero, List.take_left, bytes_ascii ascii] at cut
  exact ⟨cut, ascii⟩

theorem positionScan_bytes (text : List Char) :
    positionScan (bytes text) = some ((selectorPosition text).map (Edit.inBytes text)) := by
  have same (text : List Char) : (selectorPosition? (bytes text)).isSome = (selectorPosition? text).isSome :=
    congrArg Option.isSome (selectorPosition?_bytes text)
  have past (b : Char) (rest : List Char) (past : ¬ b.toNat < 128) : (selectorPosition? (b :: rest)).isSome = false :=
    congrArg Option.isSome (selectorPosition?_past b rest past)
  rw [positionScan, selectorPosition, head?_places_bytes same past]
  cases first : (places (fun rest => (selectorPosition? rest).isSome) 0 text).head? with
  | none => rfl
  | some place =>
      obtain ⟨start, found⟩ := place
      obtain ⟨front, rfl, rfl, holds, -⟩ := places_head? first
      obtain ⟨word, position⟩ := Option.isSome_iff_exists.mp holds
      obtain ⟨cut, ascii⟩ := slice?_position position
      rw [Option.map_some]
      dsimp only
      rw [lastIndex?_bytes (List.forall_mem_singleton.mpr (by decide)), selectorPosition?_bytes, position, Option.getD_some]
      cases last : lastIndex? [')'] found with
      | none => rfl
      | some close =>
          obtain ⟨before, d, more, whole, ⟨behind, closing⟩, rfl, -⟩ := lastIndex?_some last
          obtain ⟨rfl, -⟩ := List.cons.inj closing
          have size : byteOffset found (before.length + 1) = byteOffset found before.length + 1 := by
            rw [whole, byteOffset_append, byteOffset_succ, byteOffset_zero, byteOffset_left, encoded_ascii (by decide)]
            rfl
          have edit : Edit.inBytes (front ++ found) ⟨0 + front.length, before.length + 1, ':' :: (word ++ "(0n)".toList)⟩ =
              ⟨byteOffset (front ++ found) (0 + front.length), byteOffset found before.length + 1,
                ':' :: (word ++ "(0n)".toList)⟩ := by
            have zero : ∀ c ∈ "(0n)".toList, c.toNat < 128 := ascii_of_all (by decide +kernel)
            rw [Edit.inBytes, Nat.zero_add, List.drop_left, size, bytes_cons_ascii (by decide), bytes_front ascii,
              bytes_ascii zero]
          rw [Option.map_some]
          dsimp only
          rw [cut, Option.map_some, List.map_singleton, edit]

/-! The rules of a repair. -/

theorem IsSearch.scans {edits : List Char → List Edit} (h : IsSearch edits) :
    ∃ scan, ScansBytes edits scan ∧ ∀ text, scan (bytes text) = some ((edits text).map (Edit.inBytes text)) := by
  cases h with
  | pseudo table => exact ⟨_, .pseudo, (mirrors_pseudo table.table).edits?_bytes⟩
  | width =>
      refine ⟨_, .width, ?_⟩
      intro text
      rw [widthScan, chars_bytes]
  | negation => exact ⟨_, .negation, negationScan_bytes⟩
  | position => exact ⟨_, .position, positionScan_bytes⟩
  | vendor => exact ⟨_, .vendor, mirrors_vendor.edits?_bytes⟩

/-- Edits that are found in the bytes of a text as they are in its characters, and nowhere cut one apart. -/
structure AreWellFormed (text : List Char) (edits : List Edit) (scanned : Option (List Edit)) : Prop where
  ranges : AreRanges text edits
  replaced : Replaced 0 text edits (Edit.applyAll text edits)
  scanned : scanned = some (edits.map (Edit.inBytes text))
  byteRanges : AreRanges (bytes text) (edits.map (Edit.inBytes text))
  matched : ∀ e ∈ edits,
    slice? (bytes text) (e.inBytes text).start (e.inBytes text).stop = some (bytes (e.matched text))
  applied : Edit.applyBytes? (bytes text) 0 (edits.map (Edit.inBytes text)) = some (bytes (Edit.applyAll text edits))

/-- Whatever a text is, each rule finds edits that are well formed, by a search of bytes that may cut the text on both sides
of every colon. A repair counts the edits of all its rules, each on what the one before has left, and records what they
matched, save for the edits of two rules that have no kind. -/
theorem repairRules_wellFormed :
    (∀ rule ∈ repairRules, ∃ scan, ScansBytes rule.edits scan ∧
      ∀ text, AreWellFormed text (rule.edits text) (scan (bytes text))) ∧
    (∀ text i, (bytes text)[i]? = some ':' →
      isBoundary (bytes text) i = true ∧ isBoundary (bytes text) (i + 1) = true) ∧
    (repairRules.filter (·.kind.isNone)).length = 2 ∧
    ∀ selector, (inputs selector repairRules).map Prod.fst = repairRules ∧
      (repair selector).count = ((inputs selector repairRules).map editCount).sum ∧
      (repair selector).recorded = (inputs selector repairRules).flatMap (records selector) ∧
      Findings.total (grouped ((repair selector).recorded.map fun r => (r.1.category, r.2))) +
        (((inputs selector repairRules).filter (·.1.kind.isNone)).map editCount).sum = (repair selector).count := by
  refine ⟨?_, ?_, rfl, ?_⟩
  · intro rule mem
    have search := isSearch_edits rule mem
    obtain ⟨scan, scans, scanned⟩ := search.scans
    refine ⟨scan, scans, ?_⟩
    intro text
    have ranges := search.areRanges text
    exact ⟨ranges, ranges.replaced, scanned text, ranges.inBytes, fun e _ => e.slice?_inBytes text, ranges.applyBytes?⟩
  · intro text i colon
    exact isBoundary_of_byte (by decide) colon
  · intro selector
    obtain ⟨count, recorded⟩ := runs_inputs selector repairRules ⟨selector, 0, []⟩
    have count' : (repair selector).count = ((inputs selector repairRules).map editCount).sum := by
      rw [repair]
      exact count.trans (Nat.zero_add _)
    have recorded' : (repair selector).recorded = (inputs selector repairRules).flatMap (records selector) := recorded
    refine ⟨fst_inputs selector repairRules, count', recorded', ?_⟩
    rw [total_grouped, List.length_map, recorded', count', sum_editCount]

end StyleAudit.Selector
