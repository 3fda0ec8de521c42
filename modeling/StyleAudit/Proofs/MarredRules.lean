import StyleAudit.Proofs.BarredReading
import StyleAudit.Proofs.MarredSelectors
/-!
The rules on marred selectors. One takes the first quotes off, one puts a position back, and the others find nothing.
-/
namespace StyleAudit.Selector

section
variable {p : Piece} {pieces : List Piece}

theorem AreMarred.head (h : AreMarred (p :: pieces)) :
    p.meant.Stands (markedText pieces).head? ∧ p.meant.damage = [] ∧ p.IsMarred := by
  have stands : p.meant.Stands ((meantText pieces).head?.or none) := h.sound.1
  rw [Option.or_none, ← head?_marked] at stands
  exact ⟨stands, (List.append_eq_nil_iff.mp h.undamaged).1, h.marred p List.mem_cons_self⟩

theorem AreMarred.tail (h : AreMarred (p :: pieces)) : AreMarred pieces :=
  ⟨h.sound.2, (List.append_eq_nil_iff.mp h.undamaged).2, fun q mem => h.marred q (List.mem_cons_of_mem p mem)⟩

end

/-! Marred pseudos. -/

section
variable {word rest argument : List Char} {inner : List Atom} {quote : Char} {next : Option Char}

theorem isPlain_reference (h : IsReference argument) : ∀ c ∈ argument, isPlain c = true := by
  obtain ⟨mark, name, rfl, mark', -, letters⟩ := h
  refine List.forall_mem_cons.mpr ⟨?_, fun c hc => isPlain_of_isNameChar (letters c hc)⟩
  rcases mark' with rfl | rfl <;> decide

theorem no_colon_reference (h : IsReference argument) : ∀ c ∈ argumentText (some argument), c ≠ ':' := by
  intro c hc
  rw [argumentText, List.mem_cons, List.mem_append, List.mem_singleton] at hc
  rcases hc with rfl | hc | rfl
  · decide
  · rw [Ne, char_eq_iff]
    exact (isPlain_iff.mp (isPlain_reference h c hc)).1
  · decide

theorem fits_quoted (h : (Item.negation word inner false).Stands next) (hq : quote = '"' ∨ quote = '\'') :
    Fits word (some (quote :: (inner.flatMap Atom.text ++ [quote]))) rest := by
  have fits := Item.negation_fits h rest
  have mark : IsClosed [quote] := .plain (by rcases hq with rfl | rfl <;> simp)
  refine ⟨fits.nonempty, fits.word, fun a some => ?_, fun none => by cases none⟩
  obtain rfl := Option.some.inj some
  exact mark.append ((fits.closed _ rfl).append mark)

theorem fits_swapped (hw : lower word ∈ positionNames) (ha : IsReference argument) : Fits word (some argument) rest := by
  obtain ⟨visible, letters⟩ := word_of_lower (known_position hw)
  refine ⟨visible, letters, fun a some => ?_, fun none => by cases none⟩
  obtain rfl := Option.some.inj some
  exact Site.isClosed_of_isPlain (isPlain_reference ha)

theorem no_colon_quote (hq : quote = '"' ∨ quote = '\'') : ∀ c ∈ [quote], c ≠ ':' :=
  no_colon_mark (by rcases hq with rfl | rfl <;> decide)

/-- The inside of a quoted negation, in front of its second quote. -/
theorem row_quoted (h : (Item.negation word inner false).Stands next) (hq : quote = '"' ∨ quote = '\'') (rest : List Char) :
    Row Atom.text Atom.Stands (quote :: rest).head? inner := by
  refine h.2.2.before fun _ _ ha => ha.before fun c hc => ?_
  obtain rfl := Option.some.inj hc
  rcases hq with rfl | rfl <;> decide

end

/-! Rules for pseudo names. -/

/-- A rule that does nothing about a negation or a position whose argument begins with a quote or the mark of a class or
an id. -/
def PassesOver (colons : Colons) (names : List PseudoName) (replace : List Char → Option (List Char)) : Prop :=
  ∀ word c more, (lower word = "not" ∨ lower word ∈ positionNames) → (c = '"' ∨ c = '\'' ∨ c = '.' ∨ c = '#') →
    (∀ rest, Fits word (some (c :: more)) rest) → actsOn colons names replace .one word (some (c :: more)) = none

section
variable {m : Mending} {colons : Colons} {names : List PseudoName} {replace : List Char → Option (List Char)}

theorem sweep_pieces (hm : m.Describes colons names replace) (hc : m.Counts) (hs : PassesOver colons names replace)
    {pieces : List Piece} (h : AreMarred pieces) :
    SweepsOn (pseudoRule colons names replace) (markedText pieces) (markedText pieces) 0 := by
  induction pieces with
  | nil => exact .nil
  | cons p pieces ih =>
      have behind := ih h.tail
      obtain ⟨stands, undamaged, marred⟩ := h.head
      rw [markedText_cons]
      cases p with
      | item i =>
          have one : AreSound (markedText pieces).head? [i] := ⟨stands, trivial⟩
          have sweep := hm.pass hc one (by rw [damageOf, List.flatMap_singleton]; exact undamaged) behind
          rwa [textOf, List.flatMap_singleton] at sweep
      | quoted word inner quote =>
          have quoted := no_colon_quote marred
          have closing := (behind.plain (no_colon_mark (c := ')') (by decide))).plain quoted
          have sound : AreSound (quote :: ([')'] ++ markedText pieces)).head? (inner.map Item.atom) :=
            areSound_atoms.mpr (row_quoted stands marred _)
          have inside := hm.pass hc sound (by rw [damageOf_atoms]; exact undamaged) closing
          rw [textOf_atoms] at inside
          have opening := (inside.plain quoted).plain (no_colon_mark (c := '(') (by decide))
          have argument : SweepsOn (pseudoRule colons names replace)
              (argumentText (some (quote :: (inner.flatMap Atom.text ++ [quote]))) ++ markedText pieces)
              (argumentText (some (quote :: (inner.flatMap Atom.text ++ [quote]))) ++ markedText pieces) 0 := by
            simpa [argumentText] using opening
          have none := hs word quote (inner.flatMap Atom.text ++ [quote]) (.inl stands.1)
            (by rcases marred with rfl | rfl <;> simp) fun rest => fits_quoted stands marred
          have sweep := SweepsOn.keep hm.table (fits_quoted stands marred) none argument
          simpa [Piece.text, spelling] using sweep
      | swapped word argument =>
          obtain ⟨name, reference⟩ := marred
          have none : actsOn colons names replace .one word (some argument) = .none := by
            obtain ⟨mark, more, rfl, mark', -⟩ := id reference
            exact hs word mark more (.inr name) (by rcases mark' with rfl | rfl <;> simp) fun rest => fits_swapped name reference
          have sweep := SweepsOn.keep hm.table (fits_swapped name reference) none (behind.plain (no_colon_reference reference))
          simpa [Piece.text, spelling] using sweep

theorem edits_pieces (hm : m.Describes colons names replace) (hc : m.Counts) (hs : PassesOver colons names replace)
    {pieces : List Piece} (h : AreMarred pieces) : (pseudoRule colons names replace).edits (markedText pieces) = [] :=
  List.length_eq_zero_iff.mp ((sweep_pieces hm hc hs h none (by simp)).edits 0).2

theorem passesOver_two : PassesOver .two names replace := by
  intro word c more _ _ _
  rw [actsOn, if_neg fun both => by cases both.1]

theorem passesOver_names (h : ∀ n ∈ "not" :: positionNames, ⟨n, true⟩ ∉ names) : PassesOver colons names replace := by
  intro word c more name _ _
  rw [actsOn, if_neg fun both => h (lower word) (List.mem_cons.mpr name) both.2]

end

/-! The rules that find nothing. -/

section
variable {pieces : List Piece}

/-- What stands first in a marred argument is kept when it is trimmed. -/
theorem trim_marked_argument {c : Char} (h : c = '"' ∨ c = '\'' ∨ c = '.' ∨ c = '#') (more : List Char) :
    Text.trim (c :: more) ≠ [] ∧ Text.trim (c :: more) ≠ ['0'] := by
  have visible : Text.isBlank c = false := by rcases h with rfl | rfl | rfl | rfl <;> decide
  obtain ⟨rest, trimmed⟩ := Text.trim_cons visible more
  rw [trimmed]
  refine ⟨List.cons_ne_nil _ _, fun zero => ?_⟩
  obtain rfl := (List.cons.inj zero).1
  revert h
  decide

theorem secondColon_pieces (h : AreMarred pieces) : secondColon.edits (markedText pieces) = [] :=
  edits_pieces mendElements_describes mendElements_counts (passesOver_names (by decide +kernel)) h

theorem oneColon_pieces (h : AreMarred pieces) : oneColon.edits (markedText pieces) = [] :=
  edits_pieces mendClasses_describes mendClasses_counts passesOver_two h

theorem zeroPosition_pieces (h : AreMarred pieces) : zeroPosition.edits (markedText pieces) = [] := by
  refine edits_pieces mendZeros_describes mendZeros_counts (fun word c more _ mark fits => ?_) h
  rw [actsOn]
  split
  · rw [splitArgument_spelling (fits [])]
    exact if_neg (trim_marked_argument mark more).2
  · rfl

theorem emptyNegation_pieces (h : AreMarred pieces) : emptyNegation.edits (markedText pieces) = [] := by
  refine edits_pieces emptyNegation_describes mendNothing_counts (fun word c more _ mark fits => ?_) h
  rw [actsOn]
  split
  · rw [splitArgument_spelling (fits [])]
    exact if_neg (trim_marked_argument mark more).1
  · rfl

theorem removal_pieces (h : AreMarred pieces) {r : Removal} (hr : r ∈ removals) :
    (removal r.colons r.names).edits (markedText pieces) = [] := by
  have foreign := removals_foreign r hr
  refine edits_pieces (foreign.describes r.colons) mendNothing_counts (passesOver_names fun n mem => ?_) h
  rcases List.mem_cons.mp mem with rfl | mem
  · exact foreign.unknown _ (List.mem_cons_of_mem _ List.mem_cons_self) true
  · exact foreign.unknown _ (List.mem_cons_of_mem _ (known_position mem)) true

/-! Characters of pieces. -/

/-- What holds of all visible characters and of the quotes holds of all characters of pieces. -/
theorem forall_marked {q : Char → Prop} (visible : ∀ c, IsVisible c → q c) (h : AreMarred pieces)
    (quotes : ∀ c ∈ pieces.flatMap Piece.quotes, q c) : ∀ c ∈ markedText pieces, q c := by
  induction pieces with
  | nil => simp [markedText]
  | cons p pieces ih =>
      obtain ⟨stands, -, marred⟩ := h.head
      rw [List.flatMap_cons, List.forall_mem_append] at quotes
      rw [markedText_cons, List.forall_mem_append]
      refine ⟨?_, ih h.tail quotes.2⟩
      have marks : q ':' ∧ q '(' ∧ q ')' :=
        ⟨visible _ isVisible_marks.1, visible _ isVisible_marks.2.1, visible _ isVisible_marks.2.2⟩
      have letters {word : List Char} (h : ∀ c ∈ word, isWordChar c = true) : ∀ c ∈ word, q c := fun c hc =>
        visible c (.inl (isPlain_of_isWordChar (h c hc)))
      cases p with
      | item i =>
          have one : AreSound (markedText pieces).head? [i] := ⟨stands, trivial⟩
          have all := isVisible_items (one.standsBefore (by simp))
          rw [textOf, List.flatMap_singleton] at all
          exact fun c hc => visible c (all c hc)
      | quoted word inner quote =>
          have fits : Fits word _ [] := fits_quoted stands marred
          refine forall_spelling marks (letters fits.word) fun a some => ?_
          obtain rfl := Option.some.inj some
          have mark : q quote := quotes.1 quote List.mem_cons_self
          rw [List.forall_mem_cons, List.forall_mem_append]
          exact ⟨mark, fun c hc => visible c (isVisible_atoms stands.2.2 c hc), by simpa using mark⟩
      | swapped word argument =>
          obtain ⟨name, reference⟩ := marred
          have fits : Fits word _ [] := fits_swapped name reference
          refine forall_spelling marks (letters fits.word) fun a some => ?_
          obtain rfl := Option.some.inj some
          exact fun c hc => visible c (.inl (isPlain_reference reference c hc))

theorem quotes_marred (h : AreMarred pieces) : ∀ c ∈ pieces.flatMap Piece.quotes, c = '"' ∨ c = '\'' := by
  intro c hc
  obtain ⟨p, mem, inside⟩ := List.mem_flatMap.mp hc
  have marred := h.marred p mem
  cases p with
  | quoted word inner quote =>
      obtain rfl := List.mem_singleton.mp inside
      exact marred
  | _ => cases inside

theorem zeroWidth_pieces (h : AreMarred pieces) : zeroWidth.edits (markedText pieces) = [] := by
  refine zeroWidth_idle (forall_marked (fun _ visible => visible.unmarked.1) h fun c hc => ?_)
  rcases quotes_marred h c hc with rfl | rfl <;> decide

theorem quote_absent (h : AreMarred pieces) {quote : Char} (hq : quote = '"' ∨ quote = '\'')
    (absent : quote ∉ pieces.flatMap Piece.quotes) : ∀ c ∈ markedText pieces, c ≠ quote := by
  refine forall_marked (fun c visible => ?_) h fun c hc same => absent (same ▸ hc)
  obtain ⟨-, double, single⟩ := visible.unmarked
  rcases hq with rfl | rfl
  · exact double
  · exact single

/-! What stands behind the colons. -/

theorem colonsNamed_pieces (h : AreMarred pieces) (kept : ∀ p ∈ pieces, p.isSwapped = false) :
    ColonsNamed (markedText pieces) := by
  induction pieces with
  | nil => exact .nil
  | cons p pieces ih =>
      obtain ⟨stands, -, marred⟩ := h.head
      obtain ⟨other, kept⟩ := List.forall_mem_cons.mp kept
      have behind := ih h.tail kept
      rw [markedText_cons]
      cases p with
      | item i => exact .item stands behind
      | quoted word inner quote =>
          have known : lower word ∈ "not" :: (elementNames ++ classNames ++ functionNames) := by
            rw [stands.1]
            exact List.mem_cons_self
          have quoted := no_colon_quote marred
          have closing := (behind.plain (no_colon_mark (c := ')') (by decide))).plain quoted
          have inside := ColonsNamed.atoms (row_quoted stands marred _) closing
          have opening := (inside.plain quoted).plain (no_colon_mark (c := '(') (by decide))
          refine .spelling ⟨rfl, fits_quoted stands marred, known, fun _ _ => .inl stands.1⟩ ?_
          simpa [argumentText] using opening
      | swapped => cases other

end

/-! The rules that mend. -/

/-- The first place at which a predicate holds. -/
theorem places_first {p : List Char → Bool} {front found : List Char} (visible : found ≠ []) (holds : p found = true)
    (before : ∀ part, part <:+ front → part ≠ [] → p (part ++ found) = false) (position : Nat) :
    (places p position (front ++ found)).head? = some (position + front.length, found) := by
  induction front generalizing position with
  | nil =>
      obtain ⟨c, rest, rfl⟩ := List.exists_cons_of_ne_nil visible
      rw [List.nil_append, places, if_pos holds]
      rfl
  | cons c front ih =>
      have other := before (c :: front) (List.suffix_refl _) (List.cons_ne_nil _ _)
      rw [List.cons_append] at other ⊢
      rw [places, if_neg (by rw [other]; exact Bool.false_ne_true),
        ih (fun part suffix => before part (suffix.trans (List.suffix_cons _ _))), List.length_cons]
      congr 2
      omega

/-- The last place of a part. -/
theorem lastIndex?_last {part front rest : List Char} {c : Char} (here : part <+: c :: rest)
    (last : ∀ more, more <:+ rest → more ≠ [] → ¬ part <+: more) :
    lastIndex? part (front ++ c :: rest) = some front.length := by
  cases found : lastIndex? part (front ++ c :: rest) with
  | none =>
      have absent := of_places_nil (List.getLast?_eq_none_iff.mp (Option.map_eq_none_iff.mp found)) (c :: rest)
        (List.suffix_append _ _) (List.cons_ne_nil _ _)
      rw [List.isPrefixOf_iff_prefix.mpr here] at absent
      cases absent
  | some size =>
      obtain ⟨front', d, rest', same, here', rfl, last'⟩ := lastIndex?_some found
      rcases List.append_eq_append_iff.mp same with ⟨between, rfl, behind⟩ | ⟨between, rfl, behind⟩
      · cases between with
        | nil => simp
        | cons e between =>
            obtain ⟨rfl, rfl⟩ := List.cons.inj behind
            exact absurd here' (last _ (List.suffix_append _ _) (List.cons_ne_nil _ _))
      · cases between with
        | nil => simp
        | cons e between =>
            obtain ⟨rfl, rfl⟩ := List.cons.inj behind
            exact absurd here (last' _ (List.suffix_append _ _) (List.cons_ne_nil _ _))

section
variable {word argument inner front back : List Char} {quote : Char}

theorem beginsWith_position (hw : lower word ∈ positionNames) (rest : List Char) :
    beginsWith (':' :: ((lower word).toList ++ ['('])) (':' :: (word ++ '(' :: rest)) = true := by
  have low : (lower word).toList.map Char.toLower = (lower word).toList := by
    refine (List.map_congr_left fun c hc => ?_).trans (List.map_id _)
    exact ((positionNames_words _ hw).2 c hc).2
  rw [beginsWith_iff, List.map_cons, List.map_append, low, toList_lower]
  exact ⟨rest.map Char.toLower, by simp⟩

theorem selectorPosition?_swapped (hw : lower word ∈ positionNames) (ha : IsReference argument) (rest : List Char) :
    selectorPosition? (spelling .one word (some argument) ++ rest) = some word := by
  obtain ⟨mark, tail, rfl, mark', -⟩ := id ha
  have written : spelling .one word (some (mark :: tail)) ++ rest = ':' :: (word ++ '(' :: mark :: (tail ++ ')' :: rest)) := by
    simp [spelling, Colons.text, argumentText]
  rw [written, selectorPosition?]
  cases found : positionNames.find? fun name => beginsWith (':' :: (name.toList ++ ['(']))
      (':' :: (word ++ '(' :: mark :: (tail ++ ')' :: rest))) with
  | none => exact absurd (beginsWith_position hw _) (List.find?_eq_none.mp found _ hw)
  | some other =>
      have fits : Fits word (some (mark :: tail)) rest := fits_swapped hw ha
      have begins := List.find?_some found
      change beginsWith (':' :: (other.toList ++ ['('])) (':' :: (word ++ '(' :: mark :: (tail ++ ')' :: rest))) = true at begins
      obtain ⟨d, more, same, -, begins⟩ := beginsWith_cons begins
      obtain rfl := (List.cons.inj same).2
      have argument : word ++ '(' :: mark :: (tail ++ ')' :: rest) = word ++ (argumentText (some (mark :: tail)) ++ rest) := by
        simp [argumentText]
      rw [argument] at begins
      obtain ⟨rfl, -⟩ := position_word fits (List.mem_of_find?_eq_some found) begins
      have length : (lower word).length = word.length := by
        rw [← String.length_toList, toList_lower, List.length_map]
      dsimp only
      rw [length, List.drop_succ_cons, ← List.drop_drop, List.drop_left, List.drop_succ_cons, List.drop_zero]
      dsimp only
      rw [if_pos mark', List.drop_succ_cons, List.drop_zero, List.take_left]

/-- A class or an id in the place of the last argument gives way to a position. -/
theorem selectorPosition_swapped (hw : lower word ∈ positionNames) (ha : IsReference argument)
    (before : ∀ part, part <:+ front → part ≠ [] →
      selectorPosition? (part ++ (spelling .one word (some argument) ++ back)) = none) (last : ')' ∉ back) :
    selectorPosition (front ++ (spelling .one word (some argument) ++ back)) =
      [⟨front.length, (spelling .one word (some argument)).length, spelling .one word (some "0n".toList)⟩] := by
  have found := selectorPosition?_swapped hw ha back
  have first : (places (fun rest => (selectorPosition? rest).isSome) 0
      (front ++ (spelling .one word (some argument) ++ back))).head? =
        some (0 + front.length, spelling .one word (some argument) ++ back) := by
    have visible : spelling .one word (some argument) ++ back ≠ [] := List.cons_ne_nil _ _
    refine places_first visible (Option.isSome_iff_exists.mpr ⟨word, found⟩) (fun part suffix visible => ?_) 0
    exact Option.isSome_eq_false_iff.mpr (Option.isNone_iff_eq_none.mpr (before part suffix visible))
  have close : lastIndex? [')'] (spelling .one word (some argument) ++ back) =
      some (':' :: (word ++ '(' :: argument)).length := by
    have written : spelling .one word (some argument) ++ back = (':' :: (word ++ '(' :: argument)) ++ ')' :: back := by
      simp [spelling, Colons.text, argumentText]
    rw [written]
    refine lastIndex?_last (List.prefix_append [')'] back) fun more suffix _ here => last ?_
    exact suffix.subset (here.subset List.mem_cons_self)
  rw [selectorPosition, first]
  dsimp only
  rw [close, found]
  simp [spelling, Colons.text, argumentText, Nat.add_assoc]

theorem not_call (name : lower word = "not") :
    (':' :: (word ++ ['('])).length = 5 ∧ ∀ c ∈ ':' :: (word ++ ['(']), c ≠ '"' ∧ c ≠ '\'' := by
  obtain ⟨length, letters⟩ := not_word name
  refine ⟨by simp [length], fun c hc => ?_⟩
  rw [List.mem_cons, List.mem_append, List.mem_singleton] at hc
  rcases hc with rfl | hc | rfl
  · decide
  · have letter := letters c hc
    constructor <;> rintro rfl <;> exact absurd letter (by decide)
  · decide

theorem startsQuotedNegation_call (name : lower word = "not") (hq : quote = '"' ∨ quote = '\'') (rest : List Char) :
    startsQuotedNegation ((':' :: (word ++ ['('])) ++ quote :: rest) = true := by
  have letters := congrArg String.toList name
  rw [toList_lower] at letters
  have start : ":not(".toList.map Char.toLower = (':' :: (word ++ ['('])).map Char.toLower := by simp [letters]
  have begins : beginsWith ":not(".toList ((':' :: (word ++ ['('])) ++ quote :: rest) = true := by
    rw [beginsWith_iff, start, List.map_append]
    exact List.prefix_append _ _
  rw [startsQuotedNegation, begins, ← (not_call name).1, List.drop_left, Bool.true_and]
  rcases hq with rfl | rfl <;> rfl

/-- In front of a negation without quotes before its argument, none begins: the sixth character is no quote. -/
theorem startsQuotedNegation_before {part call : List Char} (length : call.length = 5) (visible : part ≠ [])
    (plain : ∀ c ∈ part ++ call, c ≠ '"' ∧ c ≠ '\'') (rest : List Char) :
    startsQuotedNegation (part ++ (call ++ rest)) = false := by
  have size := List.length_pos_iff.mpr visible
  obtain ⟨c, more, cut⟩ : ∃ c more, (part ++ call).drop 5 = c :: more := by
    refine List.exists_cons_of_ne_nil fun short => ?_
    rw [List.drop_eq_nil_iff, List.length_append] at short
    omega
  have other := plain c (List.mem_of_mem_drop (by rw [cut]; exact List.mem_cons_self))
  rw [startsQuotedNegation, ← List.append_assoc, List.drop_append_of_le_length (by rw [List.length_append]; omega), cut]
  simp [other]

/-- The first quotes around an argument of a negation go, if there are no others like them. -/
theorem quotedNegation_quoted (name : lower word = "not") (hq : quote = '"' ∨ quote = '\'') (visible : inner ≠ [])
    (before : ∀ c ∈ front, c ≠ '"' ∧ c ≠ '\'') (last : quote ∉ back) :
    quotedNegation (front ++ (spelling .one word (some (quote :: (inner ++ [quote]))) ++ back)) =
      [⟨front.length, (spelling .one word (some (quote :: (inner ++ [quote])))).length, spelling .one word (some inner)⟩] := by
  have length : word.length = 3 := (not_word name).1
  obtain ⟨opening, plain⟩ := not_call name
  have written : spelling .one word (some (quote :: (inner ++ [quote]))) ++ back =
      (':' :: (word ++ ['('])) ++ quote :: (inner ++ quote :: ')' :: back) := by
    simp [spelling, Colons.text, argumentText]
  have found := startsQuotedNegation_call name hq (inner ++ quote :: ')' :: back)
  have taken : (':' :: (word ++ ['('])).take 4 = ':' :: word := by
    rw [List.take_succ_cons, ← length, List.take_left]
  generalize ':' :: (word ++ ['(']) = call at written opening plain found taken
  have none (part : List Char) (suffix : part <:+ front) (some : part ≠ []) :
      startsQuotedNegation (part ++ (call ++ quote :: (inner ++ quote :: ')' :: back))) = false :=
    startsQuotedNegation_before opening some
      (List.forall_mem_append.mpr ⟨fun c hc => before c (suffix.subset hc), plain⟩) _
  have first := places_first (by simp) found none 0
  have close : lastIndex? [quote, ')'] (inner ++ quote :: ')' :: back) = some inner.length := by
    refine lastIndex?_last ⟨back, rfl⟩ fun more suffix _ here => ?_
    have mem := suffix.subset (here.subset List.mem_cons_self)
    rcases List.mem_cons.mp mem with same | mem
    · rcases hq with rfl | rfl <;> cases same
    · exact last mem
  obtain ⟨c, more, rfl⟩ := List.exists_cons_of_ne_nil visible
  have five : (call ++ quote :: (c :: more ++ quote :: ')' :: back)).drop 5 = quote :: (c :: more ++ quote :: ')' :: back) := by
    rw [← opening, List.drop_left]
  have six : (call ++ quote :: (c :: more ++ quote :: ')' :: back)).drop 6 = c :: more ++ quote :: ')' :: back := by
    rw [← List.drop_drop (i := 1) (j := 5), five, List.drop_succ_cons, List.drop_zero]
  have four : (call ++ quote :: (c :: more ++ quote :: ')' :: back)).take 4 = ':' :: word := by
    rw [List.take_append_of_le_length (by omega), taken]
  rw [written, quotedNegation, first]
  dsimp only
  rw [five, six, four, List.take_succ_cons, List.take_zero, List.singleton_append, close]
  simp only [List.length_cons, Nat.zero_add]
  rw [← List.length_cons, List.take_left]
  simp [spelling, Colons.text, argumentText, length]
  omega

end
end StyleAudit.Selector
