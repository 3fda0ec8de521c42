import StyleAudit.Proofs.FoundPseudos
import StyleAudit.Proofs.RepairRounds
/-!
Quotes and escapes in a text that is mended. The rules keep no account of them. What is quoted or escaped stays as it is
as long as it does not look like what a rule searches for; only what stands in the argument of a pseudo goes with it.
-/
namespace StyleAudit.Selector

/-! Quotes and escapes. -/

/-- Where a text stands with respect to quotes and backslashes. -/
inductive Mode where
  | bare
  | escaped
  | quoted (mark : Char)
  | quotedEscape (mark : Char)
  deriving DecidableEq, Repr

def Mode.next : Mode → Char → Mode
  | .bare, c => if c = '\\' then .escaped else if c = '"' ∨ c = '\'' then .quoted c else .bare
  | .escaped, _ => .bare
  | .quoted mark, c => if c = '\\' then .quotedEscape mark else if c = mark then .bare else .quoted mark
  | .quotedEscape mark, _ => .quoted mark

def modeAfter (mode : Mode) (text : List Char) : Mode := text.foldl Mode.next mode

/-- The quoted strings and the escaped characters of a text, each as it is written; `piece` is what there is of the first. -/
def piecesFrom (mode : Mode) (piece : List Char) : List Char → List (List Char)
  | [] => if mode = .bare then [] else [piece]
  | c :: rest =>
    if mode.next c = .bare then (if mode = .bare then [] else [piece ++ [c]]) ++ piecesFrom .bare [] rest
    else piecesFrom (mode.next c) (piece ++ [c]) rest

def pieces (text : List Char) : List (List Char) := piecesFrom .bare [] text

/-- A character that begins neither a string nor an escape. -/
def IsUnmarked (c : Char) : Prop := c ≠ '\\' ∧ c ≠ '"' ∧ c ≠ '\''

section
variable {mode : Mode} {piece front text rest : List Char}

@[simp] theorem modeAfter_nil : modeAfter mode [] = mode := rfl

@[simp] theorem modeAfter_cons (c : Char) : modeAfter mode (c :: text) = modeAfter (mode.next c) text := rfl

@[simp] theorem modeAfter_append : modeAfter mode (front ++ text) = modeAfter (modeAfter mode front) text :=
  List.foldl_append

theorem IsUnmarked.next {c : Char} (h : IsUnmarked c) : Mode.bare.next c = .bare := by
  rw [Mode.next, if_neg h.1, if_neg (not_or.mpr h.2)]

/-- Behind the end of all strings and escapes, pieces begin anew. -/
theorem piecesFrom_append (closed : modeAfter mode front = .bare) (start : mode = .bare → piece = []) :
    piecesFrom mode piece (front ++ rest) = piecesFrom mode piece front ++ pieces rest := by
  induction front generalizing mode piece with
  | nil =>
      obtain rfl : mode = .bare := closed
      rw [start rfl]
      rfl
  | cons c front ih =>
      rw [List.cons_append, piecesFrom, piecesFrom]
      split
      · next ends =>
          rw [modeAfter_cons, ends] at closed
          rw [ih closed fun _ => rfl, List.append_assoc]
      · next goesOn => exact ih closed fun ends => absurd ends goesOn

theorem pieces_append (rest : List Char) (closed : modeAfter .bare front = .bare) : pieces (front ++ rest) = pieces front ++ pieces rest :=
  piecesFrom_append closed fun _ => rfl

theorem pieces_unmarked (h : ∀ c ∈ text, IsUnmarked c) : pieces text = [] ∧ modeAfter .bare text = .bare := by
  induction text with
  | nil => exact ⟨rfl, rfl⟩
  | cons c text ih =>
      obtain ⟨none, bare⟩ := ih fun d hd => h d (List.mem_cons_of_mem c hd)
      have next := (h c List.mem_cons_self).next
      rw [modeAfter_cons, next, pieces, piecesFrom, if_pos next, if_pos rfl]
      exact ⟨none, bare⟩

end

/-! What the rules search for. -/

/-- The names that the rules search for. -/
def soughtNames : List String :=
  (singleColonElements ++ doubleColonClasses ++ experimentalElements ++ unsupportedElements ++ experimentalClasses ++
    unsupportedClasses).map PseudoName.name ++ positionNames

/-- A word that is a name that a rule searches for, or begins like those of a vendor. -/
def isSought (word : List Char) : Bool :=
  soughtNames.contains (lower word) || vendorNames.any fun name => name.toList.isPrefixOf (lower word).toList

/-- Behind a colon, or behind two, stands a word that a rule searches for. -/
def namesPseudo (rest : List Char) : Bool :=
  isSought (rest.takeWhile isWordChar) || (rest.head? == some ':' && isSought (rest.tail.takeWhile isWordChar))

theorem isSought_named {word : List Char} (h : lower word ∈ soughtNames) : isSought word = true := by
  rw [isSought, List.contains_iff_mem.mpr h, Bool.true_or]

theorem isSought_vendor {mark run : List Char} (h : lower mark ∈ vendorNames) : isSought (mark ++ run) = true := by
  rw [isSought, Bool.or_eq_true]
  refine .inr (List.any_eq_true.mpr ⟨lower mark, h, List.isPrefixOf_iff_prefix.mpr ?_⟩)
  rw [toList_lower, toList_lower, List.map_append]
  exact List.prefix_append _ _

/-- What is quoted or escaped holds no closing parenthesis, and no colon in front of a word that a rule searches for. -/
structure IsQuiet (text : List Char) : Prop where
  closing : ∀ front rest, text = front ++ ')' :: rest → modeAfter .bare front = .bare
  colon : ∀ front rest, text = front ++ ':' :: rest → modeAfter .bare front ≠ .bare → namesPseudo rest = false

theorem isQuiet_iff {text : List Char} : IsQuiet text ↔ ∀ i < text.length, modeAfter .bare (text.take i) = .bare ∨
    (text[i]? ≠ some ')' ∧ (text[i]? = some ':' → namesPseudo (text.drop (i + 1)) = false)) := by
  constructor
  · intro h i _
    have cut {c : Char} (here : text[i]? = some c) : text = text.take i ++ c :: text.drop (i + 1) := by
      obtain ⟨inside, rfl⟩ := List.getElem?_eq_some_iff.mp here
      rw [← List.drop_eq_getElem_cons, List.take_append_drop]
    by_cases bare : modeAfter .bare (text.take i) = .bare
    · exact .inl bare
    · exact .inr ⟨fun here => bare (h.closing _ _ (cut here)), fun here => h.colon _ _ (cut here) bare⟩
  · intro h
    have at_ {front rest : List Char} {c : Char} (cut : text = front ++ c :: rest) : modeAfter .bare front = .bare ∨
        (c ≠ ')' ∧ (c = ':' → namesPseudo rest = false)) := by
      have here := h front.length (by rw [cut, List.length_append, List.length_cons]; omega)
      have char : text[front.length]? = some c := by
        rw [cut, List.getElem?_append_right (le_refl _), Nat.sub_self]
        rfl
      have behind : text.drop (front.length + 1) = rest := by
        rw [cut, ← List.drop_drop, List.drop_left]
        rfl
      rw [char, behind, cut, List.take_left] at here
      simpa using here
    exact ⟨fun front rest cut => (at_ cut).resolve_right fun other => other.1 rfl,
      fun front rest cut guarded => ((at_ cut).resolve_left guarded).2 rfl⟩

instance (text : List Char) : Decidable (IsQuiet text) := decidable_of_iff _ isQuiet_iff.symm

/-- What a rule finds at the start of a text: colons, a word it searches for, and perhaps an argument. -/
structure IsFound (matched rest : List Char) : Prop where
  spelled : ∃ own word argument, matched = spelling own word argument ∧ ∀ c ∈ word, isWordChar c = true
  named : ∃ tail, matched = ':' :: tail ∧ namesPseudo (tail ++ rest) = true

theorem isUnmarked_of_isWordChar {c : Char} (h : isWordChar c = true) : IsUnmarked c := by
  rw [isWordChar_iff] at h
  simp only [IsUnmarked, Ne, char_eq_iff]
  refine ⟨?_, ?_, ?_⟩ <;> simp <;> omega

theorem isUnmarked_colons (own : Colons) : ∀ c ∈ own.text, IsUnmarked c := by
  have colon : IsUnmarked ':' := ⟨by decide, by decide, by decide⟩
  cases own <;> simp [Colons.text, colon]

/-- In a quiet text, what a rule finds begins and ends outside of strings and escapes. -/
theorem IsQuiet.found {front matched rest : List Char} (h : IsQuiet (front ++ (matched ++ rest))) (found : IsFound matched rest) :
    modeAfter .bare front = .bare ∧ modeAfter .bare matched = .bare := by
  have start : modeAfter .bare front = .bare := by
    by_contra guarded
    obtain ⟨tail, rfl, named⟩ := found.named
    rw [h.colon front (tail ++ rest) rfl guarded] at named
    cases named
  refine ⟨start, ?_⟩
  obtain ⟨own, word, argument, rfl, letters⟩ := found.spelled
  have name : ∀ c ∈ own.text ++ word, IsUnmarked c :=
    List.forall_mem_append.mpr ⟨isUnmarked_colons own, fun c hc => isUnmarked_of_isWordChar (letters c hc)⟩
  cases argument with
  | none =>
      rw [spelling, argumentText, List.append_nil]
      exact (pieces_unmarked name).2
  | some a =>
      have closing := h.closing (front ++ (own.text ++ (word ++ '(' :: a))) rest (by simp [spelling, argumentText])
      have whole : spelling own word (some a) = (own.text ++ (word ++ '(' :: a)) ++ [')'] := by
        simp [spelling, argumentText]
      rw [modeAfter_append, start] at closing
      rw [whole, modeAfter_append, closing]
      rfl

/-! What each rule finds. -/

theorem isFound_spelling {own : Colons} {word rest : List Char} {argument : Option (List Char)}
    (letters : ∀ c ∈ word, isWordChar c = true)
    (sought : isSought ((word ++ (argumentText argument ++ rest)).takeWhile isWordChar) = true) :
    IsFound (spelling own word argument) rest := by
  refine ⟨⟨own, word, argument, rfl, letters⟩, ?_⟩
  cases own with
  | one =>
      refine ⟨word ++ argumentText argument, rfl, ?_⟩
      rw [List.append_assoc, namesPseudo, sought, Bool.true_or]
  | two =>
      refine ⟨':' :: (word ++ argumentText argument), rfl, ?_⟩
      rw [List.cons_append, List.append_assoc, namesPseudo, List.tail_cons, sought, List.head?_cons, beq_self_eq_true,
        Bool.true_and, Bool.or_true]

theorem spelling_ne_nil (own : Colons) (word : List Char) (argument : Option (List Char)) :
    spelling own word argument ≠ [] := by
  cases own <;> simp [spelling, Colons.text]

/-! What each rule leaves. -/

/-- A relation between the pieces before and after that holds of a text if it holds of its parts. -/
structure Frames (R : List (List Char) → List (List Char) → Prop) : Prop where
  refl : ∀ parts, R parts parts
  append : ∀ {a b c d : List (List Char)}, R a b → R c d → R (a ++ c) (b ++ d)

theorem frames_eq : Frames Eq := ⟨fun _ => rfl, fun hab hcd => by rw [hab, hcd]⟩

theorem frames_sublist : Frames List.Sublist := ⟨List.Sublist.refl, List.Sublist.append⟩

/-- Something that ends outside of strings and escapes gives way to something that does, too, with these pieces left. -/
def Spares (R : List (List Char) → List (List Char) → Prop) (matched replacement : List Char) : Prop :=
  modeAfter .bare matched = .bare → modeAfter .bare replacement = .bare ∧ R (pieces replacement) (pieces matched)

/-- The edits of a rule replace pseudos that it searches for, and leave these pieces of a quiet text. -/
structure IsCareful (R : List (List Char) → List (List Char) → Prop) (edits : List Char → List Edit) : Prop where
  found : ∀ text, ∀ e ∈ edits text, ∃ front matched rest, text = front ++ (matched ++ rest) ∧ e.start = front.length ∧
    e.size = matched.length ∧ IsFound matched rest
  left : ∀ text, IsQuiet text → modeAfter .bare (Edit.applyAll text (edits text)) = modeAfter .bare text ∧
    R (pieces (Edit.applyAll text (edits text))) (pieces text)

section
variable {R : List (List Char) → List (List Char) → Prop} {rule : LocalRule}

/-- The pieces behind edits that each replace something outside of strings and escapes. -/
theorem Sweeps.pieces (frames : Frames R) {previous : Option Char} {text out : List Char} {n : Nat}
    (sweep : Sweeps rule previous text out n) (front piece : List Char) (start : modeAfter .bare front = .bare → piece = [])
    (h : ∀ previous before part rest replacement, front ++ text = before ++ (part ++ rest) →
      rule previous (part ++ rest) = some (part.length, replacement) →
        modeAfter .bare before = .bare ∧ modeAfter .bare part = .bare ∧ modeAfter .bare replacement = .bare ∧
          R (Selector.pieces replacement) (Selector.pieces part)) :
    modeAfter (modeAfter .bare front) out = modeAfter (modeAfter .bare front) text ∧
      R (piecesFrom (modeAfter .bare front) piece out) (piecesFrom (modeAfter .bare front) piece text) := by
  induction sweep generalizing front piece with
  | done => exact ⟨rfl, frames.refl _⟩
  | @keep previous c rest out n _ _ ih =>
      have later : ∀ previous before part rest' replacement, (front ++ [c]) ++ rest = before ++ (part ++ rest') →
          rule previous (part ++ rest') = some (part.length, replacement) →
            modeAfter .bare before = .bare ∧ modeAfter .bare part = .bare ∧ modeAfter .bare replacement = .bare ∧
              R (Selector.pieces replacement) (Selector.pieces part) := by
        rwa [List.append_assoc]
      have next : modeAfter .bare (front ++ [c]) = (modeAfter .bare front).next c := by rw [modeAfter_append]; rfl
      rw [piecesFrom, piecesFrom, modeAfter_cons, modeAfter_cons]
      split
      · next ends =>
          obtain ⟨mode, parts⟩ := ih (front ++ [c]) [] (fun _ => rfl) later
          rw [next] at mode parts
          rw [ends] at parts
          exact ⟨mode, frames.append (frames.refl _) parts⟩
      · next goesOn =>
          have inside : modeAfter .bare (front ++ [c]) = .bare → piece ++ [c] = [] :=
            fun ends => absurd (next.symm.trans ends) goesOn
          obtain ⟨mode, parts⟩ := ih (front ++ [c]) (piece ++ [c]) inside later
          rw [next] at mode parts
          exact ⟨mode, parts⟩
  | @edit previous part rest replacement out n _ found _ ih =>
      obtain ⟨bare, whole, new, spared⟩ := h previous front part rest replacement rfl found
      obtain rfl := start bare
      have after : modeAfter .bare (front ++ part) = .bare := by rw [modeAfter_append, bare, whole]
      obtain ⟨mode, parts⟩ := ih (front ++ part) [] (fun _ => rfl) (by rwa [List.append_assoc])
      rw [after] at mode parts
      rw [bare, modeAfter_append, modeAfter_append, new, whole]
      refine ⟨mode, ?_⟩
      have old := pieces_append rest whole
      have now := pieces_append out new
      rw [Selector.pieces] at old now
      rw [old, now]
      exact frames.append spared parts

theorem IsCareful.of_local (frames : Frames R)
    (h : ∀ previous text size replacement, rule previous text = some (size, replacement) →
      ∃ matched rest, text = matched ++ rest ∧ size = matched.length ∧ matched ≠ [] ∧ IsFound matched rest ∧
        Spares R matched replacement) : IsCareful R rule.edits where
  found text e he := by
    obtain ⟨front, rest, previous, rfl, start, found⟩ := mem_editsFrom he
    obtain ⟨matched, rest, rfl, size, -, isFound, -⟩ := h _ _ _ _ found
    exact ⟨front, matched, rest, rfl, start.trans (Nat.zero_add _), size, isFound⟩
  left text quiet := by
    obtain ⟨out, n, sweep⟩ := exists_sweep (fun previous text size replacement found => by
      obtain ⟨matched, rest, cut, size, visible, -⟩ := h previous text size replacement found
      exact ⟨matched, rest, cut, size, visible⟩) none text
    obtain ⟨same, -⟩ := sweep.edits 0
    have spared := sweep.pieces frames [] [] (fun _ => rfl) fun previous before part rest replacement cut found => by
      obtain ⟨matched, rest', cut', size, -, isFound, spares⟩ := h _ _ _ _ found
      obtain ⟨rfl, rfl⟩ := List.append_inj cut' size
      rw [List.nil_append] at cut
      rw [cut] at quiet
      obtain ⟨bare, whole⟩ := quiet.found isFound
      exact ⟨bare, whole, spares whole⟩
    rw [← same] at spared
    exact spared

/-- One edit. -/
theorem IsCareful.of_single (frames : Frames R) {edits : List Char → List Edit}
    (h : ∀ text, edits text ≠ [] → ∃ front matched rest replacement, text = front ++ (matched ++ rest) ∧
      edits text = [⟨front.length, matched.length, replacement⟩] ∧ IsFound matched rest ∧ Spares R matched replacement) :
    IsCareful R edits where
  found text e he := by
    obtain ⟨front, matched, rest, replacement, cut, only, found, -⟩ := h text (List.ne_nil_of_mem he)
    rw [only, List.mem_singleton] at he
    subst he
    exact ⟨front, matched, rest, cut, rfl, rfl, found⟩
  left text quiet := by
    by_cases some : edits text = []
    · rw [some]
      exact ⟨rfl, frames.refl _⟩
    · obtain ⟨front, matched, rest, replacement, rfl, only, found, spares⟩ := h text some
      obtain ⟨bare, whole⟩ := quiet.found found
      obtain ⟨new, spared⟩ := spares whole
      rw [only, applyAll_single, pieces_append _ bare, pieces_append _ bare, pieces_append _ new, pieces_append _ whole]
      simp only [modeAfter_append, bare, new, whole, true_and]
      exact frames.append (frames.refl _) (frames.append spared (frames.refl _))

theorem careful_pseudoRule (frames : Frames R) {colons : Colons} {names : List PseudoName}
    {replace : List Char → Option (List Char)} (hn : IsNameTable names) (known : ∀ n ∈ names, n.name ∈ soughtNames)
    (spares : ∀ word argument rest replacement, ⟨lower word, argument.isSome⟩ ∈ names → Fits word argument rest →
      replace (spelling colons word argument) = some replacement → Spares R (spelling colons word argument) replacement) : IsCareful R (pseudoRule colons names replace).edits := by
  refine .of_local frames fun previous text size replacement found => ?_
  obtain ⟨word, argument, rest, rfl, mem, rfl, acts, fits, -⟩ := pseudoRule_some hn found
  refine ⟨spelling colons word argument, rest, rfl, rfl, spelling_ne_nil _ _ _, isFound_spelling fits.word ?_,
    spares word argument rest replacement mem fits acts⟩
  rw [takeWhile_stops fits.word fits.tail.1]
  exact isSought_named (known _ mem)

end

/-- A replacement without quotes and backslashes leaves nothing of what was quoted or escaped. -/
theorem spares_plain {matched replacement : List Char} (h : ∀ c ∈ replacement, IsUnmarked c) :
    Spares List.Sublist matched replacement := by
  intro _
  obtain ⟨none, bare⟩ := pieces_unmarked h
  rw [none]
  exact ⟨bare, List.nil_sublist _⟩

theorem isUnmarked_name (own : Colons) {word behind : List Char} (letters : ∀ c ∈ word, isWordChar c = true)
    (hb : ∀ c ∈ behind, IsUnmarked c) : ∀ c ∈ own.text ++ word ++ behind, IsUnmarked c :=
  List.forall_mem_append.mpr ⟨List.forall_mem_append.mpr
    ⟨isUnmarked_colons own, fun c hc => isUnmarked_of_isWordChar (letters c hc)⟩, hb⟩

theorem isUnmarked_position : ∀ c ∈ "(0n)".toList, IsUnmarked c := by
  have chars : "(0n)".toList = ['(', '0', 'n', ')'] := rfl
  rw [chars]
  simp [IsUnmarked]

theorem isUnmarked_of_isBlank {c : Char} (h : Text.isBlank c = true) : IsUnmarked c := by
  rw [isBlank_iff] at h
  simp only [IsUnmarked, Ne, char_eq_iff]
  refine ⟨?_, ?_, ?_⟩ <;> simp <;> omega

theorem known_names {names : List PseudoName} (h : (names.all fun n => soughtNames.contains n.name) = true) :
    ∀ n ∈ names, n.name ∈ soughtNames := fun n hn => List.contains_iff_mem.mp (List.all_eq_true.mp h n hn)

theorem careful_secondColon : IsCareful Eq secondColon.edits := by
  refine careful_pseudoRule frames_eq (isNameTable_of_all (by decide +kernel)) (known_names (by decide +kernel))
    fun word argument rest replacement _ _ acts bare => ?_
  obtain rfl := Option.some.inj acts
  exact ⟨bare, rfl⟩

theorem careful_oneColon : IsCareful Eq oneColon.edits := by
  refine careful_pseudoRule frames_eq (isNameTable_of_all (by decide +kernel)) (known_names (by decide +kernel))
    fun word argument rest replacement _ _ acts bare => ?_
  obtain rfl := Option.some.inj acts
  exact ⟨bare, rfl⟩

/-- A position of zero has neither quotes nor backslashes. -/
theorem careful_zeroPosition : IsCareful Eq zeroPosition.edits := by
  refine careful_pseudoRule frames_eq (isNameTable_of_all (by decide +kernel)) (known_names (by decide +kernel))
    fun word argument rest replacement mem fits acts _ => ?_
  have functional : ∀ n ∈ zeroPositionClasses, n.functional = true := by decide
  obtain ⟨a, rfl⟩ := Option.isSome_iff_exists.mp (functional _ mem)
  rw [splitArgument_spelling fits] at acts
  dsimp only at acts
  split at acts
  · next position =>
      obtain rfl := Option.some.inj acts
      have argument : ∀ c ∈ argumentText (some a), IsUnmarked c := by
        obtain ⟨before, behind, parts, hb, hr⟩ := Text.trim_parts a
        rw [position] at parts
        rw [parts]
        have zero : ∀ c ∈ ['0'], IsUnmarked c := by simp [IsUnmarked]
        have inner := List.forall_mem_append.mpr ⟨fun c hc => isUnmarked_of_isBlank (hb c hc),
          List.forall_mem_append.mpr ⟨zero, fun c hc => isUnmarked_of_isBlank (hr c hc)⟩⟩
        have closing : ∀ c ∈ [')'], IsUnmarked c := by simp [IsUnmarked]
        exact List.forall_mem_cons.mpr ⟨by simp [IsUnmarked], List.forall_mem_append.mpr ⟨inner, closing⟩⟩
      have old := pieces_unmarked (isUnmarked_name .one fits.word argument)
      have new := pieces_unmarked (isUnmarked_name .one fits.word isUnmarked_position)
      rw [List.append_assoc] at old
      rw [spelling, old.1, new.1]
      exact ⟨new.2, rfl⟩
  · cases acts

/-- What a rule for a name in front of an argument finds. -/
theorem isFound_argument {word a rest : List Char} (known : lower word ∈ soughtNames)
    (letters : ∀ c ∈ word, isWordChar c = true) : IsFound (spelling .one word (some a)) rest := by
  refine isFound_spelling letters ?_
  have stops : StopsAt isWordChar (argumentText (some a) ++ rest) := .cons (by decide)
  rw [takeWhile_stops letters stops]
  exact isSought_named known

theorem careful_selectorPosition : IsCareful List.Sublist selectorPosition := by
  have known : ∀ n ∈ positionNames, n ∈ soughtNames := by decide +kernel
  refine .of_single frames_sublist fun text some => ?_
  obtain ⟨front, word, mark, inner, rest, name, -, cut, -, only⟩ := selectorPosition_some some
  have letters := (word_of_lower (List.mem_cons_of_mem _ (List.mem_append_right _ (List.mem_cons_of_mem _ name)))).2
  refine ⟨front, _, rest, _, cut, only, isFound_argument (known _ name) letters, spares_plain ?_⟩
  have plain := isUnmarked_name .one letters isUnmarked_position
  rwa [List.append_assoc] at plain

theorem careful_vendorPseudo : IsCareful List.Sublist vendorPseudo.edits := by
  refine .of_local frames_sublist fun previous text size replacement found => ?_
  obtain ⟨own, mark, run, argument, rest, known, heads, rfl, rfl⟩ := vendorPseudo_some found
  refine ⟨spelling own (mark ++ run) argument, rest, heads.text, rfl, spelling_ne_nil _ _ _,
    isFound_spelling heads.word ?_, spares_plain fun c hc => nomatch hc⟩
  rw [List.takeWhile_append_of_pos heads.word, List.append_assoc]
  exact isSought_vendor known

theorem careful_removal {colons : Colons} {names : List PseudoName} {replace : List Char → Option (List Char)}
    (hn : (names.all fun n => n.name != "" && n.name.toList.all fun c => isWordChar c && c.toLower == c) = true)
    (known : (names.all fun n => soughtNames.contains n.name) = true)
    (gone : ∀ matched replacement, replace matched = some replacement → replacement = []) :
    IsCareful List.Sublist (pseudoRule colons names replace).edits := by
  refine careful_pseudoRule frames_sublist (isNameTable_of_all hn) (known_names known)
    fun word argument rest replacement _ _ acts => spares_plain ?_
  rw [gone _ _ acts]
  exact fun c hc => nomatch hc

/-- What the rule for quoted negations finds. -/
theorem found_quotedNegation : ∀ text, ∀ e ∈ quotedNegation text, ∃ front matched rest, text = front ++ (matched ++ rest) ∧
    e.start = front.length ∧ e.size = matched.length ∧ IsFound matched rest := by
  intro text e he
  obtain ⟨front, word, quote, inner, rest, name, -, -, cut, -, only⟩ := quotedNegation_some (List.ne_nil_of_mem he)
  rw [only, List.mem_singleton] at he
  subst he
  refine ⟨front, _, rest, cut, rfl, rfl, isFound_argument ?_ (word_of_lower ?_).2⟩
  · rw [name]
    decide +kernel
  · rw [name]
    exact List.mem_cons_self

theorem IsCareful.sublist {edits : List Char → List Edit} (h : IsCareful Eq edits) : IsCareful List.Sublist edits where
  found := h.found
  left text quiet := ⟨(h.left text quiet).1, (h.left text quiet).2 ▸ List.Sublist.refl _⟩

theorem careful_first : ∀ rule ∈ repairRules.take 3, IsCareful Eq rule.edits := by
  intro rule mem
  simp only [repairRules, List.take_succ_cons, List.take_zero, List.mem_cons, List.not_mem_nil, or_false] at mem
  rcases mem with rfl | rfl | rfl
  · exact careful_secondColon
  · exact careful_oneColon
  · exact careful_zeroPosition

theorem careful_rules : ∀ rule ∈ repairRules, rule.kind ≠ some .badCharacters → rule.kind ≠ some .quotedNegation →
    IsCareful List.Sublist rule.edits := by
  have same : ∀ matched replacement : List Char, some [] = some replacement → replacement = [] :=
    fun _ _ h => (Option.some.inj h).symm
  intro rule mem narrow quoted
  simp only [repairRules, List.mem_cons, List.not_mem_nil, or_false] at mem
  rcases mem with rfl | rfl | rfl | rfl | rfl | rfl | rfl | rfl | rfl | rfl | rfl | rfl
  · exact careful_secondColon.sublist
  · exact careful_oneColon.sublist
  · exact careful_zeroPosition.sublist
  · exact absurd rfl narrow
  · exact absurd rfl quoted
  · exact careful_selectorPosition
  · exact careful_vendorPseudo
  · refine careful_removal (by decide +kernel) (by decide +kernel) fun matched replacement acts => ?_
    split at acts
    · exact (Option.some.inj acts).symm
    · cases acts
  all_goals exact careful_removal (by decide +kernel) (by decide +kernel) same

theorem edits_of_kind : ∀ rule ∈ repairRules, (rule.kind = some .badCharacters → rule.edits = zeroWidth.edits) ∧
    (rule.kind = some .quotedNegation → rule.edits = quotedNegation) := by
  intro rule mem
  simp only [repairRules, List.mem_cons, List.not_mem_nil, or_false] at mem
  rcases mem with rfl | rfl | rfl | rfl | rfl | rfl | rfl | rfl | rfl | rfl | rfl | rfl <;> simp

/-- The edits of a rule other than the one for zero-width characters are pseudos that it searches for. -/
theorem edits_found {rule : RepairRule} (mem : rule ∈ repairRules) (narrow : rule.kind ≠ some .badCharacters)
    {text : List Char} {e : Edit} (he : e ∈ rule.edits text) : ∃ front matched rest, text = front ++ (matched ++ rest) ∧
      e.start = front.length ∧ e.size = matched.length ∧ IsFound matched rest := by
  by_cases quoted : rule.kind = some .quotedNegation
  · rw [(edits_of_kind rule mem).2 quoted] at he
    exact found_quotedNegation text e he
  · exact (careful_rules rule mem narrow quoted).found text e he

/-! A whole repair. -/

/-- Every string and escape ends. None holds a closing parenthesis or a zero-width character, or is an escaped colon or
blank, and no colon in a string is in front of a word that a rule searches for. -/
structure IsCalm (text : List Char) : Prop where
  closed : modeAfter .bare text = .bare
  chars : ∀ piece ∈ pieces text, ∀ c ∈ piece, c ≠ ')' ∧ ¬ ('\u200b' ≤ c ∧ c ≤ '\u200d')
  colon : ∀ before behind, before ++ ':' :: behind ∈ pieces text → behind ≠ [] ∧ namesPseudo behind = false
  blank : ∀ b, Text.isBlank b = true → ['\\', b] ∉ pieces text

theorem isCalm_iff {text : List Char} : IsCalm text ↔ modeAfter .bare text = .bare ∧ ∀ piece ∈ pieces text,
    (piece.all fun c => c != ')' && !('\u200b' ≤ c && c ≤ '\u200d')) = true ∧
      (∀ i < piece.length, piece[i]? = some ':' → piece.drop (i + 1) ≠ [] ∧ namesPseudo (piece.drop (i + 1)) = false) ∧
        (piece.all fun b => piece != ['\\', b] || !Text.isBlank b) = true := by
  constructor
  · intro h
    refine ⟨h.closed, fun piece mem => ⟨?_, fun i _ here => ?_, ?_⟩⟩
    · refine List.all_eq_true.mpr fun c hc => ?_
      simpa [or_iff_not_imp_left] using h.chars piece mem c hc
    · refine h.colon (piece.take i) _ ?_
      obtain ⟨inside, same⟩ := List.getElem?_eq_some_iff.mp here
      rwa [← same, ← List.drop_eq_getElem_cons, List.take_append_drop]
    · refine List.all_eq_true.mpr fun b _ => ?_
      rw [Bool.or_eq_true, bne_iff_ne, Bool.not_eq_true', Bool.eq_false_iff, ← not_and_or]
      exact fun both => h.blank b both.2 (both.1 ▸ mem)
  · rintro ⟨closed, h⟩
    refine ⟨closed, fun piece mem c hc => ?_, fun before behind mem => ?_, fun b blank mem => ?_⟩
    · simpa [or_iff_not_imp_left] using List.all_eq_true.mp (h piece mem).1 c hc
    · have colon := (h _ mem).2.1 before.length (by rw [List.length_append, List.length_cons]; omega)
      rw [List.getElem?_append_right (le_refl _), Nat.sub_self, ← List.drop_drop, List.drop_left] at colon
      exact colon rfl
    · have visible := List.all_eq_true.mp (h _ mem).2.2 b (by simp)
      simp [blank] at visible

instance (text : List Char) : Decidable (IsCalm text) := decidable_of_iff _ isCalm_iff.symm

section
variable {mode : Mode} {piece front rest text out : List Char} {c mark : Char}

/-- Within a string or an escape, its piece has begun. -/
theorem piecesFrom_inside (piece rest : List Char) (guarded : modeAfter mode front ≠ .bare) :
    ∃ begun, piecesFrom (modeAfter mode front) begun rest ⊆ piecesFrom mode piece (front ++ rest) := by
  induction front generalizing mode piece with
  | nil => exact ⟨piece, List.Subset.refl _⟩
  | cons c front ih =>
      rw [modeAfter_cons] at guarded ⊢
      rw [List.cons_append, piecesFrom]
      split
      · next ends =>
          rw [ends] at guarded ⊢
          obtain ⟨begun, sub⟩ := ih [] guarded
          exact ⟨begun, fun whole mem => List.mem_append_right _ (sub mem)⟩
      · exact ih (piece ++ [c]) guarded

theorem piecesFrom_begun (piece text : List Char) (inside : mode ≠ .bare) : ∃ whole ∈ piecesFrom mode piece text, piece <+: whole := by
  induction text generalizing mode piece with
  | nil => exact ⟨piece, by rw [piecesFrom, if_neg inside]; exact List.mem_singleton_self _, List.prefix_refl _⟩
  | cons c text ih =>
      rw [piecesFrom, if_neg inside]
      split
      · exact ⟨piece ++ [c], List.mem_append_left _ (List.mem_singleton_self _), List.prefix_append _ _⟩
      · next goesOn =>
          obtain ⟨whole, mem, begins⟩ := ih (piece ++ [c]) goesOn
          exact ⟨whole, mem, (List.prefix_append _ _).trans begins⟩

/-- A character in a string or an escape is in a piece. -/
theorem mem_pieces (c : Char) (rest : List Char) (guarded : modeAfter .bare front ≠ .bare) : ∃ whole ∈ pieces (front ++ c :: rest), c ∈ whole := by
  obtain ⟨begun, sub⟩ := piecesFrom_inside [] (c :: rest) guarded
  rw [piecesFrom, if_neg guarded] at sub
  split at sub
  · exact ⟨begun ++ [c], sub (List.mem_append_left _ (List.mem_singleton_self _)), by simp⟩
  · next goesOn =>
      obtain ⟨whole, mem, begins⟩ := piecesFrom_begun (begun ++ [c]) rest goesOn
      exact ⟨whole, sub mem, begins.subset (by simp)⟩

/-- A string goes on up to its quote or to the end of the text. -/
theorem piecesFrom_quoted (piece text : List Char) (inside : mode = .quoted mark ∨ mode = .quotedEscape mark) :
    ∃ more, piece ++ more ∈ piecesFrom mode piece text ∧
      (more = text ∨ ∃ before behind, more = before ++ [mark] ∧ text = more ++ behind) := by
  induction text generalizing mode piece with
  | nil =>
      have guarded : mode ≠ .bare := by rcases inside with rfl | rfl <;> simp
      exact ⟨[], by rw [piecesFrom, if_neg guarded, List.append_nil]; exact List.mem_singleton_self _, .inl rfl⟩
  | cons c text ih =>
      have guarded : mode ≠ .bare := by rcases inside with rfl | rfl <;> simp
      have later (goesOn : mode.next c = .quoted mark ∨ mode.next c = .quotedEscape mark) :
          ∃ more, piece ++ more ∈ piecesFrom mode piece (c :: text) ∧
            (more = c :: text ∨ ∃ before behind, more = before ++ [mark] ∧ c :: text = more ++ behind) := by
        have other : mode.next c ≠ .bare := by rcases goesOn with next | next <;> rw [next] <;> simp
        obtain ⟨more, mem, ends⟩ := ih (piece ++ [c]) goesOn
        refine ⟨c :: more, ?_, ?_⟩
        · rw [piecesFrom, if_neg other]
          rwa [List.append_assoc] at mem
        · rcases ends with rfl | ⟨before, behind, rfl, rfl⟩
          · exact .inl rfl
          · exact .inr ⟨c :: before, behind, rfl, rfl⟩
      rcases inside with rfl | rfl
      · by_cases backslash : c = '\\'
        · exact later (.inr (by rw [Mode.next, if_pos backslash]))
        · by_cases closing : c = mark
          · refine ⟨[c], ?_, .inr ⟨[], text, by rw [closing]; rfl, rfl⟩⟩
            rw [piecesFrom, if_pos (by rw [Mode.next, if_neg backslash, if_pos closing]), if_neg guarded]
            exact List.mem_append_left _ (List.mem_singleton_self _)
          · exact later (.inl (by rw [Mode.next, if_neg backslash, if_neg closing]))
      · exact later (.inl rfl)

/-- Only quotes quote. -/
theorem quoted_mark {mark : Char} (h : modeAfter .bare front = .quoted mark ∨ modeAfter .bare front = .quotedEscape mark) :
    mark = '"' ∨ mark = '\'' := by
  induction front using List.reverseRecOn generalizing mark with
  | nil => rcases h with h | h <;> cases h
  | append_singleton front c ih =>
      rw [modeAfter_append, modeAfter_cons, modeAfter_nil] at h
      cases before : modeAfter .bare front with
      | bare =>
          rw [before, Mode.next] at h
          split at h
          · rcases h with h | h <;> cases h
          · split at h
            · next quote =>
                rcases h with h | h
                · obtain rfl := Mode.quoted.inj h
                  exact quote
                · cases h
            · rcases h with h | h <;> cases h
      | escaped => rw [before] at h; rcases h with h | h <;> cases h
      | quoted other =>
          rw [before, Mode.next] at h
          refine ih (.inl (before.trans ?_))
          split at h
          · rcases h with h | h
            · cases h
            · rw [Mode.quotedEscape.inj h]
          · split at h
            · rcases h with h | h <;> cases h
            · rcases h with h | h
              · rw [Mode.quoted.inj h]
              · cases h
      | quotedEscape other =>
          rw [before] at h
          rcases h with h | h
          · exact ih (.inr (before.trans (by rw [Mode.quoted.inj h])))
          · cases h

/-- An escape begins with a backslash. -/
theorem escaped_backslash (h : modeAfter .bare front = .escaped) :
    ∃ before, front = before ++ ['\\'] ∧ modeAfter .bare before = .bare := by
  cases front using List.reverseRecOn with
  | nil => cases h
  | append_singleton before c =>
      rw [modeAfter_append, modeAfter_cons, modeAfter_nil] at h
      cases mode : modeAfter .bare before with
      | bare =>
          rw [mode, Mode.next] at h
          split at h
          · next same => exact ⟨before, by rw [same], mode⟩
          · split at h <;> cases h
      | escaped => rw [mode] at h; cases h
      | quoted other =>
          rw [mode, Mode.next] at h
          split at h
          · cases h
          · split at h <;> cases h
      | quotedEscape other => rw [mode] at h; cases h

/-- Where a closing parenthesis or a zero-width character stands, no string or escape is open. -/
theorem IsCalm.bare (h : IsCalm text) (cut : text = front ++ c :: rest)
    (marked : c = ')' ∨ ('\u200b' ≤ c ∧ c ≤ '\u200d')) : modeAfter .bare front = .bare := by
  by_contra guarded
  obtain ⟨whole, mem, here⟩ := mem_pieces c rest guarded
  obtain ⟨closing, narrow⟩ := h.chars whole (by rw [cut]; exact mem) c here
  rcases marked with same | width
  · exact closing same
  · exact narrow width

/-- A word ends in front of a quote. -/
theorem namesPseudo_quote (hm : mark = '"' ∨ mark = '\'') (before behind : List Char) :
    namesPseudo (before ++ mark :: behind) = namesPseudo (before ++ [mark]) := by
  have stops : isWordChar mark = false := by rcases hm with rfl | rfl <;> decide
  have same (part : List Char) : (part ++ mark :: behind).takeWhile isWordChar = (part ++ [mark]).takeWhile isWordChar := by
    induction part with
    | nil => simp [stops]
    | cons c part ih => rw [List.cons_append, List.cons_append, List.takeWhile_cons, List.takeWhile_cons, ih]
  rw [namesPseudo, namesPseudo, same]
  cases before with
  | nil =>
      have other : (some mark == some ':') = false := by rcases hm with rfl | rfl <;> decide
      rw [List.nil_append, List.nil_append, List.head?_cons, List.head?_cons, other, Bool.false_and, Bool.false_and]
  | cons c before => rw [List.cons_append, List.cons_append, List.tail_cons, List.tail_cons, same]; rfl

theorem IsCalm.quiet (h : IsCalm text) : IsQuiet text where
  closing _ _ cut := h.bare cut (.inl rfl)
  colon front rest cut guarded := by
    have string {mark : Char} (inside : modeAfter .bare front = .quoted mark ∨ modeAfter .bare front = .quotedEscape mark) :
        namesPseudo rest = false := by
      have hm := quoted_mark inside
      have goesOn : (modeAfter .bare front).next ':' = .quoted mark := by
        have other : ':' ≠ mark := by rcases hm with rfl | rfl <;> decide
        rcases inside with mode | mode
        · rw [mode, Mode.next, if_neg (by decide), if_neg other]
        · rw [mode, Mode.next]
      obtain ⟨begun, sub⟩ := piecesFrom_inside [] (':' :: rest) guarded
      rw [piecesFrom, goesOn, if_neg (by simp)] at sub
      obtain ⟨more, mem, ends⟩ := piecesFrom_quoted (begun ++ [':']) rest (.inl rfl : Mode.quoted mark = .quoted mark ∨ _)
      have whole : begun ++ ':' :: more ∈ pieces text := by
        have mem' := sub mem
        rw [List.append_assoc] at mem'
        rw [cut]
        exact mem'
      obtain ⟨-, harmless⟩ := h.colon begun more whole
      rcases ends with rfl | ⟨before, behind, rfl, rfl⟩
      · exact harmless
      · rwa [List.append_assoc, List.singleton_append, namesPseudo_quote hm]
    cases mode : modeAfter .bare front with
    | bare => exact absurd mode guarded
    | escaped =>
        obtain ⟨before, rfl, bare⟩ := escaped_backslash mode
        refine absurd rfl (h.colon ['\\'] [] ?_).1
        rw [cut, List.append_assoc, pieces_append _ bare]
        exact List.mem_append_right _ List.mem_cons_self
    | quoted mark => exact string (.inl mode)
    | quotedEscape mark => exact string (.inr mode)

theorem IsCalm.of_sublist (h : IsCalm text) (mode : modeAfter .bare out = modeAfter .bare text)
    (sub : (pieces out).Sublist (pieces text)) : IsCalm out where
  closed := mode.trans h.closed
  chars piece mem := h.chars piece (sub.subset mem)
  colon before behind mem := h.colon before behind (sub.subset mem)
  blank b blank mem := h.blank b blank (sub.subset mem)

theorem isUnmarked_of_narrow (h : '\u200b' ≤ c ∧ c ≤ '\u200d') : IsUnmarked c := by
  rw [Char.le_def, Char.le_def, UInt32.le_iff_toNat_le, UInt32.le_iff_toNat_le] at h
  have bounds : 0x200b ≤ c.toNat ∧ c.toNat ≤ 0x200d := h
  simp only [IsUnmarked, Ne, char_eq_iff]
  refine ⟨?_, ?_, ?_⟩ <;> simp <;> omega

theorem zeroWidth_some {previous : Option Char} {size : Nat} {replacement : List Char}
    (h : zeroWidth previous text = some (size, replacement)) :
    ∃ c rest, text = c :: rest ∧ ('\u200b' ≤ c ∧ c ≤ '\u200d') ∧ size = 1 ∧ replacement = [] := by
  cases text with
  | nil => cases h
  | cons c rest =>
      rw [zeroWidth] at h
      split at h
      · next narrow =>
          obtain ⟨rfl, rfl⟩ := Prod.mk.inj (Option.some.inj h)
          exact ⟨c, rest, rfl, narrow, rfl, rfl⟩
      · cases h

/-- Zero-width characters that are neither quoted nor escaped go without a trace. -/
theorem IsCalm.zeroWidth (h : IsCalm text) :
    modeAfter .bare (Edit.applyAll text (zeroWidth.edits text)) = modeAfter .bare text ∧
      (pieces (Edit.applyAll text (zeroWidth.edits text))).Sublist (pieces text) := by
  obtain ⟨out, n, sweep⟩ := exists_sweep (fun previous text size replacement found => by
    obtain ⟨c, rest, rfl, -, rfl, -⟩ := zeroWidth_some found
    exact ⟨[c], rest, rfl, rfl, List.cons_ne_nil _ _⟩ : ReplacesStart Selector.zeroWidth) none text
  obtain ⟨same, -⟩ := sweep.edits 0
  have left := sweep.pieces frames_sublist [] [] (fun _ => rfl) fun previous before part rest replacement cut found => by
    obtain ⟨c, rest', start, narrow, size, rfl⟩ := zeroWidth_some found
    have cut' : part ++ rest = [c] ++ rest' := start
    obtain ⟨rfl, rfl⟩ := List.append_inj cut' size
    have plain : ∀ d ∈ [c], IsUnmarked d := List.forall_mem_singleton.mpr (isUnmarked_of_narrow narrow)
    exact ⟨h.bare cut (.inr narrow), (pieces_unmarked plain).2, rfl, List.nil_sublist _⟩
  rw [← same] at left
  exact left

/-- What a rule has recorded stays recorded. -/
theorem recorded_runs (before : List Char) (rules : List RepairRule) (r : Repairing) :
    r.recorded <+: (rules.foldl (RepairRule.run before) r).recorded := by
  induction rules generalizing r with
  | nil => exact List.prefix_refl _
  | cons rule rules ih => exact (List.prefix_append _ _).trans (ih (RepairRule.run before r rule))

/-- One rule of a repair that unquotes no negation. -/
theorem IsCalm.rule (h : IsCalm text) {rule : RepairRule} (mem : rule ∈ repairRules)
    (none : rule.kind = some .quotedNegation → rule.edits text = []) :
    modeAfter .bare (Edit.applyAll text (rule.edits text)) = modeAfter .bare text ∧
      (pieces (Edit.applyAll text (rule.edits text))).Sublist (pieces text) := by
  by_cases quoted : rule.kind = some .quotedNegation
  · rw [none quoted]
    exact ⟨rfl, List.Sublist.refl _⟩
  · by_cases narrow : rule.kind = some .badCharacters
    · rw [(edits_of_kind rule mem).1 narrow]
      exact h.zeroWidth
    · exact (careful_rules rule mem narrow quoted).left text h.quiet

theorem IsCalm.runs (before : List Char) {rules : List RepairRule} (sub : rules ⊆ repairRules) {r : Repairing}
    (h : IsCalm r.text)
    (none : ∀ x ∈ (rules.foldl (RepairRule.run before) r).recorded, x.1 ≠ .quotedNegation) :
    IsCalm (rules.foldl (RepairRule.run before) r).text ∧
      (pieces (rules.foldl (RepairRule.run before) r).text).Sublist (pieces r.text) := by
  induction rules generalizing r with
  | nil => exact ⟨h, List.Sublist.refl _⟩
  | cons rule rules ih =>
      rw [List.foldl_cons] at none ⊢
      have idle : rule.kind = some .quotedNegation → rule.edits r.text = [] := by
        intro quoted
        by_contra some
        obtain ⟨e, he⟩ := List.exists_mem_of_ne_nil _ some
        refine none (.quotedNegation, ⟨String.ofList before, String.ofList (e.matched r.text), String.ofList e.replacement⟩)
          ((recorded_runs before rules (RepairRule.run before r rule)).subset ?_) rfl
        rw [RepairRule.run, quoted]
        exact List.mem_append_right _ (List.mem_map_of_mem he)
      obtain ⟨mode, first⟩ := h.rule (sub List.mem_cons_self) idle
      have next : IsCalm (RepairRule.run before r rule).text := h.of_sublist mode first
      obtain ⟨calm, rest⟩ := ih (fun other mem => sub (List.mem_cons_of_mem _ mem)) next none
      exact ⟨calm, rest.trans first⟩

/-! The blanks at the ends. -/

/-- Blanks do not end a string. -/
theorem modeAfter_quoted {mark : Char} (hm : mark = '"' ∨ mark = '\'') (h : ∀ c ∈ text, Text.isBlank c = true) :
    modeAfter (.quoted mark) text = .quoted mark := by
  induction text with
  | nil => rfl
  | cons c text ih =>
      have plain := isUnmarked_of_isBlank (h c List.mem_cons_self)
      have other : c ≠ mark := by rcases hm with rfl | rfl; exacts [plain.2.1, plain.2.2]
      rw [modeAfter_cons, Mode.next, if_neg plain.1, if_neg other]
      exact ih fun d hd => h d (List.mem_cons_of_mem c hd)

theorem pieces_trim (h : IsCalm text) : pieces (Text.trim text) = pieces text := by
  obtain ⟨before, behind, parts, hb, hr⟩ := Text.trim_parts text
  obtain ⟨none, bare⟩ := pieces_unmarked fun c hc => isUnmarked_of_isBlank (hb c hc)
  obtain ⟨none', bare'⟩ := pieces_unmarked fun c hc => isUnmarked_of_isBlank (hr c hc)
  have closed := h.closed
  have whole := congrArg pieces parts
  rw [pieces_append _ bare, none, List.nil_append] at whole
  rw [parts, modeAfter_append, bare, modeAfter_append] at closed
  have trimmed : modeAfter .bare (Text.trim text) = .bare := by
    cases behind with
    | nil => exact closed
    | cons b more =>
        cases mode : modeAfter .bare (Text.trim text) with
        | bare => rfl
        | escaped =>
            obtain ⟨front, same, start⟩ := escaped_backslash mode
            refine absurd ?_ (h.blank b (hr b List.mem_cons_self))
            rw [whole, same, List.append_assoc, pieces_append _ start]
            exact List.mem_append_right _ List.mem_cons_self
        | quoted mark =>
            rw [mode, modeAfter_quoted (quoted_mark (.inl mode)) hr] at closed
            cases closed
        | quotedEscape mark =>
            rw [mode, modeAfter_cons] at closed
            have inside := modeAfter_quoted (quoted_mark (.inr mode)) fun c hc => hr c (List.mem_cons_of_mem b hc)
            exact absurd (inside.symm.trans closed) (by simp)
  rw [whole, pieces_append _ trimmed, none', List.append_nil]

/-! The rules and what is quoted or escaped. -/

/-- The rules leave alone what is quoted or escaped and does not look like a pseudo. Apart from zero-width characters,
which go wherever they stand, every edit begins at a colon and ends outside of strings and escapes. The first three rules
keep them all as they are written. The others but the one for quoted negations take along only those in the argument of
a pseudo, and so does a whole repair that unquotes no negation. -/
theorem repair_guarded (quiet : IsQuiet text) :
    (∀ e ∈ zeroWidth.edits text, e.size = 1 ∧ e.replacement = [] ∧
      ∃ c, text[e.start]? = some c ∧ '\u200b' ≤ c ∧ c ≤ '\u200d') ∧
    (∀ rule ∈ repairRules, rule.kind ≠ some .badCharacters → ∀ e ∈ rule.edits text,
      text[e.start]? = some ':' ∧ modeAfter .bare (text.take e.start) = .bare ∧ modeAfter .bare (text.take e.stop) = .bare) ∧
    (∀ rule ∈ repairRules.take 3, pieces (Edit.applyAll text (rule.edits text)) = pieces text) ∧
    (∀ rule ∈ repairRules, rule.kind ≠ some .badCharacters → rule.kind ≠ some .quotedNegation →
      (pieces (Edit.applyAll text (rule.edits text))).Sublist (pieces text)) ∧
    (IsCalm text → (∀ x ∈ (repair text).recorded, x.1 ≠ .quotedNegation) →
      (pieces (repair text).text).Sublist (pieces text)) := by
  refine ⟨fun e he => ?_, fun rule mem narrow e he => ?_, fun rule mem => ((careful_first rule mem).left text quiet).2,
    fun rule mem narrow quoted => ((careful_rules rule mem narrow quoted).left text quiet).2, fun calm none => ?_⟩
  · obtain ⟨front, rest, previous, rfl, start, found⟩ := mem_editsFrom he
    obtain ⟨c, rest, rfl, width, size, gone⟩ := zeroWidth_some found
    refine ⟨size, gone, c, ?_, width⟩
    rw [start, Nat.zero_add, List.getElem?_append_right (le_refl _), Nat.sub_self]
    rfl
  · obtain ⟨front, matched, rest, rfl, start, size, isFound⟩ := edits_found mem narrow he
    obtain ⟨bare, whole⟩ := quiet.found isFound
    obtain ⟨tail, rfl, -⟩ := isFound.named
    refine ⟨?_, ?_, ?_⟩
    · rw [start, List.getElem?_append_right (le_refl _), Nat.sub_self]
      rfl
    · rw [start, List.take_left]
      exact bare
    · rw [Edit.stop, start, size, ← List.append_assoc, ← List.length_append, List.take_left, modeAfter_append, bare, whole]
  · obtain ⟨after, sub⟩ := IsCalm.runs text (List.Subset.refl repairRules) (r := ⟨text, 0, []⟩) calm none
    have trimmed := pieces_trim after
    rw [repair]
    dsimp only
    rw [trimmed]
    exact sub

/-- A pseudo goes and another is mended, and the quoted address and the escape are as before. -/
theorem repair_guarded_link : IsQuiet "[href^=\"http://x\"].a\\+b:host:after".toList ∧
    (repair "[href^=\"http://x\"].a\\+b:host:after".toList).text = "[href^=\"http://x\"].a\\+b::after".toList ∧
      (pieces "[href^=\"http://x\"].a\\+b::after".toList).Sublist (pieces "[href^=\"http://x\"].a\\+b:host:after".toList) := by
  have mended : (repair "[href^=\"http://x\"].a\\+b:host:after".toList).text = "[href^=\"http://x\"].a\\+b::after".toList := by
    decide +kernel
  refine ⟨by decide +kernel, mended, ?_⟩
  rw [← mended]
  exact (repair_guarded (by decide +kernel)).2.2.2.2 (by decide +kernel) (by decide +kernel)

/-- Zero-width characters go from strings, too. -/
theorem repair_quoted_width : (repair "[title=\"a\u200bb\"]".toList).text = "[title=\"ab\"]".toList ∧
    ∃ e ∈ zeroWidth.edits "[title=\"a\u200bb\"]".toList,
      modeAfter .bare ("[title=\"a\u200bb\"]".toList.take e.start) = .quoted '"' :=
  ⟨by decide +kernel, ⟨9, 1, []⟩, by decide +kernel, by decide +kernel⟩

end
end StyleAudit.Selector
