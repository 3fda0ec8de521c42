import StyleAudit.Proofs.RemovedPseudos
/-!
What the rules find in a text that need not be a selector. An edit begins with one or two colons and a word, and takes
the argument behind the word along; two rules go on to the last closing parenthesis that ends what they look for.
-/
namespace StyleAudit.Selector

/-! Any text. -/

/-- What a local rule replaces is the beginning of what it is given. -/
def ReplacesStart (rule : LocalRule) : Prop := ∀ previous text size replacement, rule previous text = some (size, replacement) →
  ∃ front rest, text = front ++ rest ∧ size = front.length ∧ front ≠ []

/-- Such a rule goes through every text. -/
theorem exists_sweep {rule : LocalRule} (h : ReplacesStart rule) (previous : Option Char) (text : List Char) :
    ∃ out n, Sweeps rule previous text out n := by
  induction size : text.length using Nat.strong_induction_on generalizing previous text with
  | _ length ih =>
      cases text with
      | nil => exact ⟨[], 0, .done⟩
      | cons c rest =>
          cases found : rule previous (c :: rest) with
          | none =>
              obtain ⟨out, n, sweep⟩ := ih rest.length (by rw [← size]; exact Nat.lt_succ_self _) (some c) rest rfl
              exact ⟨c :: out, n, .keep found sweep⟩
          | some edit =>
              obtain ⟨front, behind, cut, same, visible⟩ := h previous (c :: rest) edit.1 edit.2 found
              have shorter : behind.length < length := by
                rw [← size, cut, List.length_append]
                exact Nat.lt_add_of_pos_left (List.length_pos_iff.mpr visible)
              obtain ⟨out, n, sweep⟩ := ih behind.length shorter front.getLast? behind rfl
              rw [cut] at found ⊢
              exact ⟨edit.2 ++ out, n + 1, .edit visible (found.trans (congrArg some (Prod.ext same rfl))) sweep⟩

/-- Every edit of a local rule is what the rule gives at its place. -/
theorem mem_editsFrom {rule : LocalRule} {skip position : Nat} {previous : Option Char} {text : List Char} {e : Edit}
    (h : e ∈ rule.editsFrom skip position previous text) : ∃ front rest previous, text = front ++ rest ∧
      e.start = position + front.length ∧ rule previous rest = some (e.size, e.replacement) := by
  induction text generalizing skip position previous with
  | nil => cases h
  | cons c text ih =>
      have later {skip : Nat} (h : e ∈ rule.editsFrom skip (position + 1) (some c) text) :
          ∃ front rest previous, c :: text = front ++ rest ∧ e.start = position + front.length ∧
            rule previous rest = some (e.size, e.replacement) := by
        obtain ⟨front, rest, previous, rfl, start, found⟩ := ih h
        exact ⟨c :: front, rest, previous, rfl, by rw [start, List.length_cons]; omega, found⟩
      cases skip with
      | succ more => exact later h
      | zero =>
          rw [LocalRule.editsFrom] at h
          split at h
          · exact later h
          · next found =>
              rcases List.mem_cons.mp h with rfl | behind
              · exact ⟨[], c :: text, previous, rfl, rfl, found⟩
              · exact later behind

/-- One edit of the text. -/
theorem applyAll_single (front matched back replacement : List Char) :
    Edit.applyAll (front ++ (matched ++ back)) [⟨front.length, matched.length, replacement⟩] =
      front ++ (replacement ++ back) := by
  rw [Edit.applyAll, Edit.applyFrom, Edit.applyFrom, Edit.stop, Nat.sub_zero, Nat.sub_zero, List.take_left,
    ← List.append_assoc, ← List.length_append, List.drop_left, List.append_assoc]

/-! Arguments in parentheses. -/

/-- The search for closing parentheses passes over what it has found, however many more there are to close. -/
theorem closingSize_some {depth : Nat} {text : List Char} {size : Nat} (h : closingSize depth text = some size) :
    ∃ front rest, text = front ++ ')' :: rest ∧ size = front.length + 1 ∧
      ∀ outer behind, closingSize (outer + depth) (front ++ behind) = (closingSize outer behind).map (front.length + ·) := by
  induction text generalizing depth size with
  | nil => cases h
  | cons c text ih =>
      -- a character in front of what was found further on
      have step {depth' : Nat} (found : (closingSize depth' text).map (1 + ·) = some size)
          (goesOn : ∀ outer behind, closingSize (outer + depth) (c :: behind) =
            (closingSize (outer + depth') behind).map (1 + ·)) :
          ∃ front rest, c :: text = front ++ ')' :: rest ∧ size = front.length + 1 ∧ ∀ outer behind,
            closingSize (outer + depth) (front ++ behind) = (closingSize outer behind).map (front.length + ·) := by
        obtain ⟨inner, closes, rfl⟩ := Option.map_eq_some_iff.mp found
        obtain ⟨front, rest, rfl, rfl, passes⟩ := ih closes
        refine ⟨c :: front, rest, rfl, by rw [List.length_cons]; omega, ?_⟩
        intro outer behind
        rw [List.cons_append, goesOn, passes, Option.map_map, List.length_cons]
        congr 1
        funext n
        simp only [Function.comp_apply]
        omega
      rw [closingSize.eq_def] at h
      dsimp only at h
      split at h
      · next opening =>
          refine step h fun outer behind => ?_
          rw [closingSize.eq_def]
          dsimp only
          rw [if_pos opening, Nat.add_assoc]
      · next opening =>
          split at h
          · next closing =>
              subst closing
              cases depth with
              | zero =>
                  obtain rfl := Option.some.inj h
                  exact ⟨[], text, rfl, rfl, fun outer behind => by simp⟩
              | succ depth =>
                  refine step h fun outer behind => ?_
                  rw [← Nat.add_assoc, closingSize.eq_def]
                  dsimp only
                  rw [if_neg opening, if_pos rfl]
          · next closing =>
              refine step h fun outer behind => ?_
              rw [closingSize.eq_def]
              dsimp only
              rw [if_neg opening, if_neg closing]

theorem argument?_some {text : List Char} {size : Nat} (h : argument? text = some size) :
    ∃ a rest, text = argumentText (some a) ++ rest ∧ size = (argumentText (some a)).length ∧ IsClosed a := by
  unfold argument? at h
  split at h
  · next inner =>
      obtain ⟨n, found, rfl⟩ := Option.map_eq_some_iff.mp h
      obtain ⟨a, rest, rfl, rfl, passes⟩ := closingSize_some found
      refine ⟨a, rest, by simp [argumentText], ?_, fun depth behind => passes depth behind⟩
      simp only [argumentText, List.length_cons, List.length_append, List.length_nil]
      omega
  · cases h

/-- The argument at the start of a text, if there is one. -/
theorem argument?_getD (text : List Char) : ∃ argument rest, text = argumentText argument ++ rest ∧
    (argument? text).getD 0 = (argumentText argument).length ∧ ∀ a, argument = some a → IsClosed a := by
  cases found : argument? text with
  | none => exact ⟨none, text, rfl, rfl, fun a some => by cases some⟩
  | some n =>
      obtain ⟨a, rest, rfl, rfl, closed⟩ := argument?_some found
      refine ⟨some a, rest, rfl, rfl, fun b same => ?_⟩
      obtain rfl := Option.some.inj same
      exact closed

/-! A pseudo at the start of a text. -/

/-- Colons, a word and an argument, if it takes one along, whose parentheses pair up. -/
structure Heads (text : List Char) (own : Colons) (word : List Char) (argument : Option (List Char))
    (rest : List Char) : Prop where
  text : text = spelling own word argument ++ rest
  nonempty : word ≠ []
  word : ∀ c ∈ word, isWordChar c = true
  closed : ∀ a, argument = some a → IsClosed a

theorem beginsWith_split {start text : List Char} (h : beginsWith start text = true) :
    ∃ word rest, text = word ++ rest ∧ word.length = start.length ∧ word.map Char.toLower = start.map Char.toLower := by
  have length := congrArg List.length (beq_iff_eq.mp h)
  simp only [List.length_map, List.length_take] at length
  exact ⟨text.take start.length, text.drop start.length, (List.take_append_drop _ _).symm,
    by rw [List.length_take]; omega, beq_iff_eq.mp h⟩

theorem isWordChar_of_map {word name : List Char} (same : word.map Char.toLower = name.map Char.toLower)
    (h : ∀ c ∈ name, isWordChar c = true ∧ c.toLower = c) : ∀ c ∈ word, isWordChar c = true := by
  intro c hc
  have mem : c.toLower ∈ name.map Char.toLower := same ▸ List.mem_map_of_mem hc
  obtain ⟨d, hd, lowered⟩ := List.mem_map.mp mem
  apply isWordChar_of_toLower
  rw [← lowered, (h d hd).2]
  exact (h d hd).1

theorem lower_of_map {word : List Char} {name : String} (same : word.map Char.toLower = name.toList.map Char.toLower)
    (h : ∀ c ∈ name.toList, c.toLower = c) : lower word = name := by
  have id_ : ∀ c ∈ name.toList, c.toLower = id c := h
  rw [← String.toList_inj, toList_lower, same, List.map_congr_left id_, List.map_id]

/-- Words in lower case that are not empty. -/
structure IsNameTable (names : List PseudoName) : Prop where
  table : IsTable names
  nonempty : ∀ n ∈ names, n.name ≠ ""

theorem isNameTable_of_all {names : List PseudoName}
    (h : (names.all fun n => n.name != "" && n.name.toList.all fun c => isWordChar c && c.toLower == c) = true) :
    IsNameTable names := by
  rw [List.all_eq_true] at h
  refine ⟨isTable_of_all (List.all_eq_true.mpr fun n hn => ?_), fun n hn => ?_⟩
  · exact ((Bool.and_eq_true _ _).mp (h n hn)).2
  · exact bne_iff_ne.mp ((Bool.and_eq_true _ _).mp (h n hn)).1

section
variable {colons : Colons} {names : List PseudoName} {replace : List Char → Option (List Char)}
variable {previous : Option Char} {text replacement : List Char} {size : Nat}

theorem size?_some {n : PseudoName} (hn : ∀ c ∈ n.name.toList, isWordChar c = true ∧ c.toLower = c) (some : n.name ≠ "")
    (h : n.size? text = .some size) : ∃ word argument rest, text = word ++ argumentText argument ++ rest ∧
      n = ⟨lower word, argument.isSome⟩ ∧ size = (word ++ argumentText argument).length ∧ Fits word argument rest := by
  obtain ⟨name, functional⟩ := n
  rw [PseudoName.size?] at h
  split at h
  · next begins =>
      obtain ⟨word, rest, rfl, length, same⟩ := beginsWith_split begins
      rw [String.length_toList] at length
      have lowered : lower word = name := lower_of_map same fun c hc => (hn c hc).2
      have chars := isWordChar_of_map same hn
      have nonempty : word ≠ [] := by
        rintro rfl
        exact some (lowered.symm.trans (by rw [← String.toList_inj, toList_lower]; rfl))
      rw [← length, List.drop_left] at h
      dsimp only at h
      cases functional with
      | true =>
          obtain ⟨n, found, rfl⟩ := Option.map_eq_some_iff.mp h
          obtain ⟨a, rest, rfl, rfl, closed⟩ := argument?_some found
          refine ⟨word, .some a, rest, (List.append_assoc _ _ _).symm, by rw [lowered]; rfl, List.length_append.symm,
            nonempty, chars, fun text same => ?_, fun none => by cases none⟩
          obtain rfl := Option.some.inj same
          exact closed
      | false =>
          refine ⟨word, none, rest, by rw [argumentText, List.append_nil], by rw [lowered]; rfl, ?_, nonempty, chars,
            fun _ some => (by cases some), fun _ => ?_⟩
          · rw [argumentText, List.append_nil]
            simp only [Bool.false_eq_true, if_false] at h
            split at h
            · exact (Option.some.inj h).symm
            · split at h
              · cases h
              · exact (Option.some.inj h).symm
          · rintro c first
            obtain ⟨more, rfl⟩ := List.head?_eq_some_iff.mp first
            simp only [Bool.false_eq_true, if_false] at h
            split at h
            · cases h
            · next free => rwa [Bool.not_eq_true] at free
  · cases h

theorem find?_some (hn : IsNameTable names) (h : PseudoName.find? names text = some size) :
    ∃ word argument rest, text = word ++ argumentText argument ++ rest ∧ ⟨lower word, argument.isSome⟩ ∈ names ∧
      size = (word ++ argumentText argument).length ∧ Fits word argument rest := by
  obtain ⟨n, mem, found⟩ := List.exists_of_findSome?_eq_some h
  obtain ⟨word, argument, rest, same, rfl, length, fits⟩ := size?_some (hn.table n mem) (hn.nonempty n mem) found
  exact ⟨word, argument, rest, same, mem, length, fits⟩

theorem behind?_some {rest : List Char} (h : colons.behind? previous text = some rest) :
    text = colons.text ++ rest ∧ (colons = .one → previous ≠ some ':') := by
  unfold Colons.behind? at h
  split at h
  · obtain rfl := Option.some.inj h
    exact ⟨rfl, nofun⟩
  · cases h
  · cases h
  · split at h
    · cases h
    · next other =>
        obtain rfl := Option.some.inj h
        exact ⟨rfl, fun _ => other⟩
  · cases h

/-- A rule for pseudo names acts on one of its names, as a whole word behind its colons, with the argument. -/
theorem pseudoRule_some (hn : IsNameTable names) (h : pseudoRule colons names replace previous text = some (size, replacement)) :
    ∃ word argument rest, text = spelling colons word argument ++ rest ∧ ⟨lower word, argument.isSome⟩ ∈ names ∧
      size = (spelling colons word argument).length ∧ replace (spelling colons word argument) = some replacement ∧
        Fits word argument rest ∧ (colons = .one → previous ≠ some ':') := by
  rw [pseudoRule] at h
  split at h
  · cases h
  · next behind start =>
      split at h
      · cases h
      · next length found =>
          obtain ⟨rfl, alone⟩ := behind?_some start
          obtain ⟨word, argument, rest, rfl, mem, rfl, fits⟩ := find?_some hn found
          obtain ⟨out, acts, same⟩ := Option.map_eq_some_iff.mp h
          obtain ⟨rfl, rfl⟩ := Prod.mk.inj same
          have whole : colons.text ++ (word ++ argumentText argument ++ rest) = spelling colons word argument ++ rest := by
            simp [spelling]
          have length : colons.count + (word ++ argumentText argument).length = (spelling colons word argument).length := by
            simp only [spelling, List.length_append, length_colons]
          rw [whole, length, List.take_left] at acts
          exact ⟨word, argument, rest, whole, mem, length, acts, fits, alone⟩

/-! A vendor's pseudo. -/

theorem vendorNames_words : ∀ name ∈ vendorNames, ∀ c ∈ name.toList, isWordChar c = true ∧ c.toLower = c := by
  have checked : (vendorNames.all fun name => name.toList.all fun c => isWordChar c && c.toLower == c) = true := by
    decide +kernel
  intro name hn c hc
  have letter := List.all_eq_true.mp (List.all_eq_true.mp checked name hn) c hc
  rwa [Bool.and_eq_true, beq_iff_eq] at letter

theorem vendorMarks_names : ∀ mark ∈ vendorMarks, ∃ name ∈ vendorNames, mark.toList = ':' :: name.toList := by
  intro mark mem
  simp only [vendorMarks, List.mem_cons, List.not_mem_nil, or_false] at mem
  rcases mem with rfl | rfl | rfl | rfl
  · exact ⟨"-ms-", by decide, rfl⟩
  · exact ⟨"-webkit-", by decide, rfl⟩
  · exact ⟨"-moz-", by decide, rfl⟩
  · exact ⟨"-o-", by decide, rfl⟩

/-- A vendor's mark in any case. -/
theorem vendorMark_some {mark : String} (h : (vendorMarks.find? fun mark => beginsWith mark.toList text) = some mark) :
    ∃ word rest, text = ':' :: (word ++ rest) ∧ lower word ∈ vendorNames ∧ mark.length = word.length + 1 ∧ word ≠ [] ∧
      ∀ c ∈ word, isWordChar c = true := by
  have begins := List.find?_some h
  obtain ⟨name, known, shape⟩ := vendorMarks_names mark (List.mem_of_find?_eq_some h)
  have chars := vendorNames_words name known
  rw [shape] at begins
  obtain ⟨c, behind, rfl, first, marked⟩ := beginsWith_cons begins
  obtain rfl : c = ':' := eq_of_toLower first (by decide)
  obtain ⟨word, rest, rfl, size, same⟩ := beginsWith_split marked
  have lowered : lower word = name := lower_of_map same fun c hc => (chars c hc).2
  have length : mark.length = word.length + 1 := by rw [← String.length_toList, shape, List.length_cons, size]
  refine ⟨word, rest, rfl, lowered ▸ known, length, ?_, isWordChar_of_map same chars⟩
  rintro rfl
  rw [← lowered] at known
  have dashed := vendor_dashed [] known
  rw [toList_lower] at dashed
  cases dashed

theorem vendorSize?_some (h : vendorSize? text = some size) : ∃ mark run argument rest, lower mark ∈ vendorNames ∧
    Heads text .one (mark ++ run) argument rest ∧ size = (spelling .one (mark ++ run) argument).length := by
  rw [vendorSize?] at h
  split at h
  · cases h
  · next mark found =>
      obtain rfl := Option.some.inj h
      obtain ⟨word, rest, rfl, known, length, visible, letters⟩ := vendorMark_some found
      rw [length, List.drop_succ_cons, List.drop_left]
      have run : ∀ c ∈ rest.takeWhile fun c => c.isAlphanum || c == '-', isWordChar c = true := by
        intro c hc
        have letter := List.mem_takeWhile_imp hc
        rw [isWordChar, letter, Bool.true_or]
      have split := List.takeWhile_append_dropWhile (p := fun c => c.isAlphanum || c == '-') (l := rest)
      generalize rest.takeWhile (fun c => c.isAlphanum || c == '-') = run' at *
      generalize rest.dropWhile (fun c => c.isAlphanum || c == '-') = behind at *
      subst split
      obtain ⟨argument, rest, rfl, taken, closed⟩ := argument?_getD behind
      rw [List.drop_left, taken]
      refine ⟨word, run', argument, rest, known, ⟨?_, List.append_ne_nil_of_left_ne_nil visible _,
        List.forall_mem_append.mpr ⟨letters, run⟩, closed⟩, ?_⟩
      · simp [spelling, Colons.text]
      · simp only [spelling, Colons.text, List.length_append, List.length_singleton]
        omega

theorem vendorPseudo_some (h : vendorPseudo previous text = some (size, replacement)) : ∃ own mark run argument rest,
    lower mark ∈ vendorNames ∧ Heads text own (mark ++ run) argument rest ∧
      size = (spelling own (mark ++ run) argument).length ∧ replacement = [] := by
  unfold vendorPseudo at h
  split at h
  · next rest =>
      obtain ⟨n, found, same⟩ := Option.map_eq_some_iff.mp h
      obtain ⟨rfl, rfl⟩ := Prod.mk.inj same
      obtain ⟨mark, run, argument, behind, known, heads, rfl⟩ := vendorSize?_some found
      refine ⟨.two, mark, run, argument, behind, known, ⟨?_, heads.nonempty, heads.word, heads.closed⟩, ?_, rfl⟩
      · exact congrArg (':' :: ·) heads.text
      · simp [spelling, Colons.text]
        omega
  · obtain ⟨n, found, same⟩ := Option.map_eq_some_iff.mp h
    obtain ⟨rfl, rfl⟩ := Prod.mk.inj same
    obtain ⟨mark, run, argument, behind, known, heads, rfl⟩ := vendorSize?_some found
    exact ⟨.one, mark, run, argument, behind, known, heads, rfl, rfl⟩

end

/-! Rules that make one edit. -/

section
variable {p : List Char → Bool} {text found : List Char} {start position : Nat}

theorem of_places_nil (h : places p position text = []) : ∀ rest, rest <:+ text → rest ≠ [] → p rest = false := by
  induction text generalizing position with
  | nil => exact fun rest suffix some => absurd (List.suffix_nil.mp suffix) some
  | cons c text ih =>
      rw [places] at h
      split at h
      · cases h
      · next none =>
          intro rest suffix some
          rcases List.suffix_cons_iff.mp suffix with rfl | suffix
          · rwa [Bool.not_eq_true] at none
          · exact ih h rest suffix some

/-- Behind the last place there is no other. -/
theorem places_getLast? (h : (places p position text).getLast? = some (start, found)) :
    ∃ front c rest, text = front ++ c :: rest ∧ found = c :: rest ∧ start = position + front.length ∧ p found = true ∧
      ∀ more, more <:+ rest → more ≠ [] → p more = false := by
  induction text generalizing position with
  | nil => cases h
  | cons c text ih =>
      have later (h : (places p (position + 1) text).getLast? = some (start, found)) :
          ∃ front d rest, c :: text = front ++ d :: rest ∧ found = d :: rest ∧ start = position + front.length ∧
            p found = true ∧ ∀ more, more <:+ rest → more ≠ [] → p more = false := by
        obtain ⟨front, d, rest, rfl, same, rfl, holds, last⟩ := ih h
        exact ⟨c :: front, d, rest, rfl, same, by rw [List.length_cons]; omega, holds, last⟩
      rw [places] at h
      split at h
      · next here =>
          rw [List.getLast?_cons] at h
          cases behind : (places p (position + 1) text).getLast? with
          | some last =>
              rw [behind] at h
              exact later (behind.trans (congrArg some (Option.some.inj h)))
          | none =>
              rw [behind] at h
              obtain ⟨rfl, rfl⟩ := Prod.mk.inj (Option.some.inj h)
              exact ⟨[], c, text, rfl, rfl, rfl, here, of_places_nil (List.getLast?_eq_none_iff.mp behind)⟩
      · exact later h

/-- Before the first place there is no other. -/
theorem places_head? (h : (places p position text).head? = some (start, found)) :
    ∃ front, text = front ++ found ∧ start = position + front.length ∧ p found = true ∧
      ∀ part, part <:+ front → part ≠ [] → p (part ++ found) = false := by
  induction text generalizing position with
  | nil => cases h
  | cons c text ih =>
      rw [places] at h
      split at h
      · next here =>
          obtain ⟨rfl, rfl⟩ := Prod.mk.inj (Option.some.inj h)
          exact ⟨[], rfl, rfl, here, fun part suffix some => absurd (List.suffix_nil.mp suffix) some⟩
      · next other =>
          obtain ⟨front, rfl, rfl, holds, first⟩ := ih h
          refine ⟨c :: front, rfl, by rw [List.length_cons]; omega, holds, fun part suffix some => ?_⟩
          rcases List.suffix_cons_iff.mp suffix with rfl | suffix
          · rwa [Bool.not_eq_true] at other
          · exact first part suffix some

theorem lastIndex?_some {part : List Char} {size : Nat} (h : lastIndex? part text = some size) :
    ∃ front c rest, text = front ++ c :: rest ∧ part <+: c :: rest ∧ size = front.length ∧
      ∀ more, more <:+ rest → more ≠ [] → ¬ part <+: more := by
  obtain ⟨⟨start, found⟩, last, rfl⟩ := Option.map_eq_some_iff.mp h
  obtain ⟨front, c, rest, rfl, rfl, rfl, holds, none⟩ := places_getLast? last
  refine ⟨front, c, rest, rfl, List.isPrefixOf_iff_prefix.mp holds, Nat.zero_add _, fun more suffix some isPrefix => ?_⟩
  have absent := none more suffix some
  rw [List.isPrefixOf_iff_prefix.mpr isPrefix] at absent
  cases absent

/-- A name behind a colon, with an opening parenthesis behind it. -/
theorem beginsWith_call {name : String} (hn : ∀ c ∈ name.toList, c.toLower = c)
    (h : beginsWith (':' :: (name.toList ++ ['('])) text = true) :
    ∃ word rest, text = ':' :: (word ++ '(' :: rest) ∧ word.length = name.length ∧ lower word = name := by
  obtain ⟨c, behind, rfl, first, begins⟩ := beginsWith_cons h
  obtain rfl : c = ':' := eq_of_toLower first (by decide)
  obtain ⟨named, opening⟩ := beginsWith_append begins
  obtain ⟨word, behind, rfl, length, same⟩ := beginsWith_split named
  rw [← length, List.drop_left] at opening
  obtain ⟨d, rest, rfl, open_, -⟩ := beginsWith_cons opening
  obtain rfl : d = '(' := eq_of_toLower open_ (by decide)
  exact ⟨word, rest, rfl, by rw [length, String.length_toList], lower_of_map same hn⟩

theorem length_spelling_argument (word a : List Char) : (spelling .one word (some a)).length = word.length + a.length + 3 := by
  simp [spelling, Colons.text, argumentText]
  omega

/-- A negation is taken out of its quotes where they end last in front of a closing parenthesis. -/
theorem quotedNegation_some (some : quotedNegation text ≠ []) :
    ∃ front word quote inner rest, lower word = "not" ∧ (quote = '"' ∨ quote = '\'') ∧ inner ≠ [] ∧
      text = front ++ (spelling .one word (.some (quote :: (inner ++ [quote]))) ++ rest) ∧
        (∀ more, ¬ (quote :: ')' :: more) <:+ rest) ∧ quotedNegation text = [⟨front.length,
          (spelling .one word (.some (quote :: (inner ++ [quote])))).length, spelling .one word (.some inner)⟩] := by
  rw [quotedNegation] at some ⊢
  split at some
  · exact absurd rfl some
  · next start found first =>
      obtain ⟨front, rfl, rfl, holds, -⟩ := places_head? first
      obtain ⟨begins, quoted⟩ := (Bool.and_eq_true _ _).mp holds
      have mark : ":not(".toList = ':' :: ("not".toList ++ ['(']) := rfl
      have low : ("not".toList.all fun c => c.toLower == c) = true := by decide +kernel
      rw [mark] at begins
      obtain ⟨word, behind, rfl, length, name⟩ := beginsWith_call (fun c hc => beq_iff_eq.mp (List.all_eq_true.mp low c hc)) begins
      replace length : word.length = 3 := length
      obtain ⟨a, b, c, rfl⟩ := List.length_eq_three.mp length
      simp only [List.cons_append, List.nil_append, List.drop_succ_cons, List.drop_zero] at quoted some ⊢
      cases behind with
      | nil => cases quoted
      | cons quote behind =>
          simp only [Bool.or_eq_true, beq_iff_eq] at quoted
          simp only [List.take_succ_cons, List.take_zero, List.cons_append, List.nil_append] at some ⊢
          split at some
          · exact absurd rfl some
          · exact absurd rfl some
          · next size nonempty last =>
              obtain ⟨inner, d, after, rfl, ⟨rest, close⟩, rfl, none⟩ := lastIndex?_some last
              obtain ⟨rfl, rfl⟩ := List.cons.inj close
              have visible : inner ≠ [] := by
                rintro rfl
                exact nonempty rfl
              refine ⟨front, [a, b, c], quote, inner, rest, name, quoted, visible, ?_, fun more suffix => ?_, ?_⟩
              · simp [spelling, Colons.text, argumentText]
              · exact none _ (suffix.trans (List.suffix_cons _ _)) (List.cons_ne_nil _ _) ⟨more, rfl⟩
              · rw [length_spelling_argument, length, Nat.zero_add, List.drop_succ_cons, List.drop_zero, List.take_left]
                congr 2
                simp
                omega

theorem selectorPosition?_some {word : List Char} (h : selectorPosition? text = some word) :
    ∃ mark rest, text = ':' :: (word ++ '(' :: mark :: rest) ∧ lower word ∈ positionNames ∧ (mark = '.' ∨ mark = '#') := by
  rw [selectorPosition?] at h
  split at h
  · cases h
  · next name named =>
      have known := List.mem_of_find?_eq_some named
      have begins := List.find?_some (p := fun name => beginsWith (':' :: (String.toList name ++ ['('])) text) named
      obtain ⟨word', behind, rfl, length, lowered⟩ :=
        beginsWith_call (fun c hc => ((positionNames_words name known).2 c hc).2) begins
      have behind_ : (':' :: (word' ++ '(' :: behind)).drop (name.length + 2) = behind := by
        rw [← length, List.drop_succ_cons, List.drop_append]
        simp
      rw [behind_] at h
      split at h
      · next mark rest =>
          split at h
          · next marked =>
              rw [List.drop_succ_cons, List.drop_zero, ← length, List.take_left] at h
              obtain rfl := Option.some.inj h
              exact ⟨mark, rest, rfl, lowered ▸ known, marked⟩
          · cases h
      · cases h

/-- What ends behind a text without a character, in front of the character, has the text in front. -/
theorem append_of_absent {c : Char} {front behind before rest : List Char} (absent : ∀ d ∈ front, d ≠ c)
    (h : front ++ behind = before ++ c :: rest) : ∃ inner, before = front ++ inner ∧ behind = inner ++ c :: rest := by
  rcases List.append_eq_append_iff.mp h with ⟨inner, same, rfl⟩ | ⟨more, rfl, same⟩
  · exact ⟨inner, same, rfl⟩
  · cases more with
    | nil => exact ⟨[], by simp, same.symm⟩
    | cons d more =>
        obtain ⟨rfl, -⟩ := List.cons.inj same
        exact absurd rfl (absent c (by simp))

/-- A class or an id as a position goes, with all that stands in front of the last closing parenthesis. -/
theorem selectorPosition_some (some : selectorPosition text ≠ []) :
    ∃ front word mark inner rest, lower word ∈ positionNames ∧ (mark = '.' ∨ mark = '#') ∧
      text = front ++ (spelling .one word (.some (mark :: inner)) ++ rest) ∧ (∀ c ∈ rest, c ≠ ')') ∧
        selectorPosition text = [⟨front.length, (spelling .one word (.some (mark :: inner))).length,
          spelling .one word (.some "0n".toList)⟩] := by
  rw [selectorPosition] at some ⊢
  split at some
  · exact absurd rfl some
  · next start found first =>
      obtain ⟨front, rfl, rfl, holds, -⟩ := places_head? first
      obtain ⟨word, position⟩ := Option.isSome_iff_exists.mp holds
      obtain ⟨mark, behind, rfl, known, marked⟩ := selectorPosition?_some position
      split at some
      · exact absurd rfl some
      · next close last =>
          obtain ⟨before, c, rest, cut, ⟨_, same⟩, rfl, none⟩ := lastIndex?_some last
          obtain ⟨rfl, -⟩ := List.cons.inj same
          have open_ : ∀ c ∈ ':' :: (word ++ ['(', mark]), c ≠ ')' := by
            have chars := (word_of_lower (List.mem_cons_of_mem _ (List.mem_append_right _ (List.mem_cons_of_mem _ known)))).2
            have letters : ∀ c ∈ word, c ≠ ')' := by
              rintro c hc rfl
              exact absurd (chars _ hc) (by decide)
            rcases marked with rfl | rfl <;> simpa [or_imp, forall_and] using letters
          have whole : (':' :: (word ++ ['(', mark])) ++ behind = before ++ ')' :: rest := by simpa using cut
          obtain ⟨inner, rfl, rfl⟩ := append_of_absent open_ whole
          refine ⟨front, word, mark, inner, rest, known, marked, ?_, fun c hc => ?_, ?_⟩
          · simp [spelling, Colons.text, argumentText]
          · rintro rfl
            obtain ⟨before, more, rfl⟩ := List.append_of_mem hc
            exact none (')' :: more) (List.suffix_append _ _) (List.cons_ne_nil _ _) ⟨more, rfl⟩
          · rw [position, length_spelling_argument, Nat.zero_add]
            dsimp only
            congr 2
            simp
            omega

end
end StyleAudit.Selector
