import StyleAudit.Proofs.RepairRounds
import StyleAudit.Proofs.SimpleEnds
/-!
Pseudos that a repair takes out. Between sound items each of them is found by its own rule and by no rule before that,
and what it leaves is the text as it was without it.
-/
namespace StyleAudit.Selector

open PseudoName (plain function)

/-! What can be taken out. -/

/-- Characters whose parentheses pair up. -/
inductive Pairs : List Char → Prop
  | nil : Pairs []
  | other {c : Char} {rest : List Char} : c ≠ '(' → c ≠ ')' → Pairs rest → Pairs (c :: rest)
  | pair {inner rest : List Char} : Pairs inner → Pairs rest → Pairs ('(' :: (inner ++ ')' :: rest))

/-- An argument without colons, quotes and zero-width characters. -/
structure IsPassive (argument : List Char) : Prop where
  pairs : Pairs argument
  colons : ∀ c ∈ argument, c ≠ ':'
  quotes : ∀ c ∈ argument, c ≠ '"' ∧ c ≠ '\''
  widths : ∀ c ∈ argument, ¬ ('\u200b' ≤ c ∧ c ≤ '\u200d')

def vendorNames : List String := ["-ms-", "-webkit-", "-moz-", "-o-"]

/-- Names that are taken out behind so many colons, and as what that is recorded. -/
structure Removal where
  colons : Colons
  names : List PseudoName
  kind : Option RepairKind

def removals : List Removal :=
  [⟨.two, [plain "placeholder", plain "backdrop", plain "marker", plain "spelling-error", plain "grammar-error"],
      some .experimentalPseudoElement⟩,
    ⟨.two, [plain "selection", function "cue", plain "cue", function "slotted", plain "slotted"], none⟩,
    ⟨.one, [plain "any-link", function "dir", plain "fullscreen", function "host", function "host-context"],
      some .experimentalPseudoClass⟩,
    ⟨.one, [plain "required", plain "valid", plain "default", plain "defined", plain "first", plain "host",
      plain "in-range", plain "indeterminate", plain "invalid", plain "left", plain "optional", plain "out-of-range",
      plain "read-only", plain "read-write", plain "right", plain "scope"], none⟩]

/-- A pseudo that is taken out, and as what: one with the mark of a vendor, or one of certain names. -/
inductive IsRemovable : Colons → List Char → Option (List Char) → Option RepairKind → Prop
  | vendor {own : Colons} {mark run : List Char} {argument : Option (List Char)} : lower mark ∈ vendorNames →
      (∀ c ∈ run, c.isAlphanum = true ∨ c = '-') → IsRemovable own (mark ++ run) argument (some .vendorExtension)
  | named {r : Removal} {word : List Char} {argument : Option (List Char)} : r ∈ removals →
      ⟨lower word, argument.isSome⟩ ∈ r.names → IsRemovable r.colons word argument r.kind

theorem Pairs.isClosed {text : List Char} (h : Pairs text) : IsClosed text := by
  induction h with
  | nil => exact .plain (by simp)
  | @other c rest opening closing _ ih =>
      have first : IsClosed [c] := .plain (by simpa using ⟨opening, closing⟩)
      exact first.append ih
  | @pair inner rest _ _ inside ih =>
      have whole := inside.parentheses.append ih
      rwa [List.cons_append, List.append_assoc, List.singleton_append] at whole

/-! A pseudo between items. -/

/-- Sound items on both sides of a pseudo, of which no repair is due but the removal of the pseudo. -/
structure Surrounds (front back : List Item) (word : List Char) (argument : Option (List Char)) : Prop where
  soundFront : AreSound none front
  soundBack : AreSound none back
  undamagedFront : damageOf front = []
  undamagedBack : damageOf back = []
  apart : StartsBehind (textOf back)
  fits : Fits word argument (textOf back)
  passive : ∀ a, argument = some a → IsPassive a

/-- Items with a pseudo among them. -/
def surrounded (front back : List Item) (own : Colons) (word : List Char) (argument : Option (List Char)) : List Char :=
  textOf front ++ (spelling own word argument ++ textOf back)

theorem AreSound.standsBefore {items : List Item} {other next : Option Char} (h : AreSound other items)
    (hn : ∀ c, next = some c → (isWordChar c || c == '(') = false) : AreSound next items :=
  Row.before h fun _ _ hi => hi.before hn

theorem head?_spelling (own : Colons) (word : List Char) (argument : Option (List Char)) (rest : List Char) :
    (spelling own word argument ++ rest).head? = some ':' := by
  cases own <;> rfl

theorem startsBehind_spelling (own : Colons) (word : List Char) (argument : Option (List Char)) (rest : List Char) :
    StartsBehind (spelling own word argument ++ rest) := by
  intro c hc
  rw [head?_spelling] at hc
  obtain rfl := Option.some.inj hc
  decide

/-! Tables in which nothing of the text is found. -/

theorem Mending.Describes.item_eq {m : Mending} {colons : Colons} {names : List PseudoName}
    {replace : List Char → Option (List Char)} (hm : m.Describes colons names replace) {i : Item}
    (h : m.itemHits i = 0) : m.item i = i := by
  have atom {a : Atom} (h : m.atomHits a = 0) : m.atom a = a := by
    cases a with
    | char c => rfl
    | site s =>
        rw [atomHits, Bool.toNat_eq_zero] at h
        exact congrArg Atom.site (hm.misses s h)
  cases i with
  | atom a => exact congrArg Item.atom (atom h)
  | negation word inner miscounted =>
      rw [itemHits] at h
      rw [item]
      split at h
      · cases h
      · next other =>
          rw [List.sum_eq_zero_iff_forall_eq_nat] at h
          rw [if_neg other]
          have same : inner.map m.atom = inner.map id :=
            List.map_congr_left fun a mem => atom (h _ (List.mem_map_of_mem mem))
          rw [same, List.map_id]

/-- A rule passes over items without damage, whatever stands behind them. -/
theorem Mending.Describes.pass {m : Mending} {colons : Colons} {names : List PseudoName}
    {replace : List Char → Option (List Char)} (hm : m.Describes colons names replace) (hc : m.Counts)
    {items : List Item} {rest out : List Char} {n : Nat} (hi : AreSound rest.head? items) (hd : damageOf items = [])
    (hs : SweepsOn (pseudoRule colons names replace) rest out n) :
    SweepsOn (pseudoRule colons names replace) (textOf items ++ rest) (textOf items ++ out) n := by
  induction items with
  | nil => exact hs
  | cons i items ih =>
      rw [damageOf_cons, List.append_eq_nil_iff] at hd
      have hits : m.itemHits i = 0 := by
        have perm := hc.item i
        rw [hd.1] at perm
        exact (List.replicate_eq_nil_iff _).mp (List.append_eq_nil_iff.mp (List.nil_perm.mp perm)).1
      have first := hi.1
      rw [← List.head?_append] at first
      have sweep := hm.sweep_item first (ih hi.2 hd.2)
      rw [hits, hm.item_eq hits, Nat.zero_add] at sweep
      rw [textOf_cons, List.append_assoc, List.append_assoc]
      exact sweep

theorem mendNothing_counts : mendNothing.Counts := by
  refine ⟨fun s => ?_, fun h => by cases h⟩
  exact .refl _

section
variable {front back : List Item} {own : Colons} {word : List Char} {argument : Option (List Char)}

theorem Surrounds.no_colon (h : Surrounds front back word argument) : ∀ c ∈ argumentText argument, c ≠ ':' := by
  cases argument with
  | none => simp [argumentText]
  | some a =>
      intro c hc
      rw [argumentText, List.mem_cons, List.mem_append, List.mem_singleton] at hc
      rcases hc with rfl | hc | rfl
      · decide
      · exact (h.passive a rfl).colons c hc
      · decide

theorem Surrounds.table_idle (h : Surrounds front back word argument) {m : Mending} {colons : Colons}
    {names : List PseudoName} {replace : List Char → Option (List Char)} (hm : m.Describes colons names replace)
    (hc : m.Counts) (none : own = colons → ⟨lower word, argument.isSome⟩ ∉ names) :
    (pseudoRule colons names replace).edits (surrounded front back own word argument) = [] := by
  have idle : actsOn colons names replace own word argument = .none := by
    rw [actsOn, if_neg fun both => none both.1 both.2]
  have nothing : SweepsOn (pseudoRule colons names replace) [] [] 0 := .nil
  have behind := hm.pass hc (by exact h.soundBack) h.undamagedBack nothing
  rw [List.append_nil] at behind
  have pseudo := SweepsOn.keep hm.table h.fits idle (behind.plain h.no_colon)
  have spelled : own.text ++ (word ++ (argumentText argument ++ textOf back)) = spelling own word argument ++ textOf back := by
    simp [spelling]
  rw [spelled] at pseudo
  have sound : AreSound (spelling own word argument ++ textOf back).head? front :=
    h.soundFront.standsBefore (startsBehind_spelling own word argument (textOf back))
  have whole := hm.pass hc sound h.undamagedFront pseudo
  exact List.length_eq_zero_iff.mp ((whole .none (by simp)).edits 0).2

/-! Rules that look at characters. -/

theorem Surrounds.forall_mem (h : Surrounds front back word argument) {p : Char → Prop} (visible : ∀ c, IsVisible c → p c)
    (inside : ∀ a, argument = some a → ∀ c ∈ a, p c) : ∀ c ∈ surrounded front back own word argument, p c := by
  intro c hc
  rw [surrounded, List.mem_append, List.mem_append] at hc
  rcases hc with hc | hc | hc
  · exact visible c (isVisible_items h.soundFront c hc)
  · refine forall_spelling ?_ (fun c hc => visible c (.inl (isPlain_of_isWordChar (h.fits.word c hc)))) inside c hc
    exact ⟨visible _ isVisible_marks.1, visible _ isVisible_marks.2.1, visible _ isVisible_marks.2.2⟩
  · exact visible c (isVisible_items h.soundBack c hc)

theorem Surrounds.zeroWidth_idle (h : Surrounds front back word argument) :
    zeroWidth.edits (surrounded front back own word argument) = [] :=
  Selector.zeroWidth_idle (h.forall_mem (fun _ visible => visible.unmarked.1) fun a some => (h.passive a some).widths)

theorem Surrounds.quotedNegation_idle (h : Surrounds front back word argument) :
    quotedNegation (surrounded front back own word argument) = [] :=
  Selector.quotedNegation_idle (h.forall_mem (fun _ visible => visible.unmarked.2) fun a some => (h.passive a some).quotes)

/-! What stands behind the colons. -/

theorem IsNamed.append {text word behind rest : List Char} {argument : Option (List Char)}
    (h : IsNamed text word argument behind) (hr : StartsBehind rest) :
    IsNamed (text ++ rest) word argument (behind ++ rest) := by
  refine ⟨?_, ⟨h.fits.nonempty, h.fits.word, h.fits.closed, fun none c hc => ?_⟩, h.known, h.argument⟩
  · rw [h.text, List.append_assoc, List.append_assoc]
  · rw [List.head?_append] at hc
    rcases Option.or_eq_some_iff.mp hc with within | ⟨-, outside⟩
    · exact h.fits.ends none c within
    · exact hr c outside

theorem IsNamed.nonempty {text word behind : List Char} {argument : Option (List Char)}
    (h : IsNamed text word argument behind) : text ≠ [] := by
  rw [h.text]
  exact List.append_ne_nil_of_left_ne_nil h.fits.nonempty _

/-- The colons of items in front of a text. -/
theorem colon_items {items : List Item} (hi : AreSound none items) {rest : List Char} (hr : StartsBehind rest)
    {text : List Char} (h : (':' :: text) <:+ textOf items) :
    text.head? = some ':' ∨ ∃ word argument behind, IsNamed (text ++ rest) word argument behind ∧ text ≠ [] := by
  rcases colonsNamed_items hi text h with colon | ⟨word, argument, behind, named⟩
  · exact .inl colon
  · exact .inr ⟨word, argument, _, named.append hr, named.nonempty⟩

/-- A suffix of two texts is one of the second, or has something of the first. -/
theorem suffix_append {front back text : List Char} (h : text <:+ front ++ back) :
    text <:+ back ∨ ∃ part, part <:+ front ∧ part ≠ [] ∧ text = part ++ back := by
  obtain ⟨before, whole⟩ := h
  rcases List.append_eq_append_iff.mp whole with ⟨part, rfl, rfl⟩ | ⟨part, rfl, rfl⟩
  · cases part with
    | nil => exact .inl (List.suffix_refl _)
    | cons c part => exact .inr ⟨c :: part, List.suffix_append _ _, List.cons_ne_nil _ _, rfl⟩
  · exact .inl (List.suffix_append _ _)

/-- The colons of the pseudo and of the items around it. -/
theorem Surrounds.colon (h : Surrounds front back word argument) {text : List Char}
    (ht : (':' :: text) <:+ surrounded front back own word argument) :
    text.head? = some ':' ∨ (∃ word argument behind, IsNamed text word argument behind) ∨
      text = word ++ (argumentText argument ++ textOf back) := by
  have inside (ht : (':' :: text) <:+ word ++ (argumentText argument ++ textOf back)) :
      text.head? = some ':' ∨ ∃ word argument behind, IsNamed text word argument behind :=
    colonsNamed_items h.soundBack text (colon_suffix h.no_colon (colon_suffix h.fits.no_colon ht))
  have first (ht : (':' :: text) <:+ ':' :: (word ++ (argumentText argument ++ textOf back))) :
      text.head? = some ':' ∨ (∃ word argument behind, IsNamed text word argument behind) ∨
        text = word ++ (argumentText argument ++ textOf back) := by
    rcases List.suffix_cons_iff.mp ht with same | suffix
    · exact .inr (.inr (List.cons.inj same).2)
    · exact (inside suffix).imp id .inl
  rcases suffix_append ht with behind | ⟨part, suffix, visible, same⟩
  · cases own with
    | one => exact first (by simpa [spelling, Colons.text] using behind)
    | two =>
        have behind : (':' :: text) <:+ ':' :: ':' :: (word ++ (argumentText argument ++ textOf back)) := by
          simpa [spelling, Colons.text] using behind
        rcases List.suffix_cons_iff.mp behind with same | suffix
        · exact .inl (by rw [(List.cons.inj same).2]; rfl)
        · exact first suffix
  · obtain ⟨c, part, rfl⟩ := List.exists_cons_of_ne_nil visible
    rw [List.cons_append] at same
    obtain ⟨rfl, rfl⟩ := List.cons.inj same
    rcases colon_items h.soundFront (startsBehind_spelling own word argument (textOf back)) suffix with
      colon | ⟨word', argument', behind, named, -⟩
    · refine .inl ?_
      rw [List.head?_append, colon]
      rfl
    · exact .inr (.inl ⟨word', argument', behind, named⟩)

theorem Surrounds.selectorPosition_idle (h : Surrounds front back word argument) (other : lower word ∉ positionNames) :
    selectorPosition (surrounded front back own word argument) = [] := by
  refine Selector.selectorPosition_idle fun rest suffix name mem begins c more start => ?_
  rcases h.colon suffix with colon | ⟨word', argument', behind, named⟩ | rfl
  · exact absurd colon (position_head mem begins)
  · exact positionArgument named mem begins start
  · obtain ⟨rfl, -⟩ := position_word h.fits mem begins
    exact absurd mem other

theorem Surrounds.vendorPseudo_idle (h : Surrounds front back word argument) (undashed : word.head? ≠ some '-') :
    vendorPseudo.edits (surrounded front back own word argument) = [] := by
  refine Selector.vendorPseudo_idle fun rest suffix => ?_
  rcases h.colon suffix with colon | ⟨word', argument', behind, named⟩ | rfl
  · rw [colon]
    decide
  · exact named.undashed
  · rwa [List.head?_append_of_ne_nil _ h.fits.nonempty]

/-! The rule that finds the pseudo. -/

/-- A rule that finds nothing in two texts, and makes one edit of what stands between them. -/
theorem edits_single {rule : LocalRule} {front matched back : List Char} (visible : matched ≠ [])
    (last : front.getLast? ≠ some ':')
    (hf : ∀ previous part, part <:+ front → part ≠ [] → rule previous (part ++ (matched ++ back)) = none)
    (hm : ∀ previous, previous ≠ some ':' → rule previous (matched ++ back) = some (matched.length, []))
    (hb : ∀ previous part, part <:+ back → rule previous part = none) :
    rule.edits (front ++ (matched ++ back)) = [⟨front.length, matched.length, []⟩] := by
  have shifted (position : Nat) (previous : Option Char) (hp : front.getLast?.or previous ≠ some ':') :
      rule.editsFrom 0 position previous (front ++ (matched ++ back)) =
        [⟨position + front.length, matched.length, []⟩] := by
    induction front generalizing position previous with
    | nil =>
        obtain ⟨c, more, rfl⟩ := List.exists_cons_of_ne_nil visible
        have found := hm previous hp
        rw [List.nil_append, List.cons_append, LocalRule.editsFrom, ← List.cons_append, found]
        have rest := editsFrom_skip rule more back (position + 1) (some c)
        simp only [List.length_cons, Nat.add_sub_cancel, List.length_nil, Nat.add_zero]
        rw [rest, editsFrom_nil hb]
    | cons c front ih =>
        rw [List.cons_append, LocalRule.editsFrom, ← List.cons_append,
          hf previous (c :: front) (List.suffix_refl _) (List.cons_ne_nil _ _)]
        have rest := ih (by
            intro colon
            rw [List.getLast?_cons, colon] at last
            exact last rfl)
          (fun previous part suffix => hf previous part (suffix.trans (List.suffix_cons c front))) (position + 1) (some c) (by
            rw [List.getLast?_cons] at last hp
            cases same : front.getLast? <;> simp_all)
        dsimp only
        rw [rest, List.length_cons]
        congr 2
        omega
  have whole := shifted 0 none (by rwa [Option.or_none])
  rwa [Nat.zero_add] at whole

/-- Names that no item has. -/
structure IsForeign (names : List PseudoName) : Prop where
  table : IsTable names
  holds : Holds names false false []
  unknown : ∀ n ∈ "" :: "not" :: (elementNames ++ classNames ++ functionNames), ∀ functional, ⟨n, functional⟩ ∉ names

theorem removals_foreign : ∀ r ∈ removals, IsForeign r.names := by
  have tables : (removals.all fun r =>
      r.names.all fun n => n.name.toList.all fun c => isWordChar c && c.toLower == c) = true := by decide +kernel
  have holds : ∀ r ∈ removals, Holds r.names false false [] := by unfold Holds; decide +kernel
  have unknown : ∀ r ∈ removals, ∀ n ∈ "" :: "not" :: (elementNames ++ classNames ++ functionNames),
      ∀ functional, ⟨n, functional⟩ ∉ r.names := by decide +kernel
  exact fun r hr => ⟨isTable_of_all (List.all_eq_true.mp tables r hr), holds r hr, unknown r hr⟩

theorem IsForeign.describes {names : List PseudoName} (h : IsForeign names) (colons : Colons) :
    mendNothing.Describes colons names fun _ => some [] :=
  removal_describes h.table h.holds (h.unknown "not" (List.mem_cons_of_mem _ List.mem_cons_self) true)

theorem IsForeign.find?_none {names : List PseudoName} (h : IsForeign names) {text : List Char}
    (ht : text.head? = some ':' ∨ ∃ word argument behind, IsNamed text word argument behind) :
    PseudoName.find? names text = none := by
  rcases ht with colon | ⟨word, argument, behind, named⟩
  · have stops : StopsAt isWordChar text := by
      intro c hc
      obtain rfl := Option.some.inj (colon.symm.trans hc)
      decide
    have empty : lower [] = "" := by rw [← String.toList_inj, toList_lower]; rfl
    have found : PseudoName.find? names ([] ++ text) = _ := find?_word h.table (by simp) stops
    rwa [List.nil_append, empty, if_neg (h.unknown "" List.mem_cons_self _)] at found
  · rw [named.text, find?_word h.table named.fits.word named.fits.tail.1,
      if_neg (h.unknown _ (List.mem_cons_of_mem _ named.known) _)]

section
variable {items : List Item} {rest part : List Char}

/-- The colons of a part of items in front of a text: behind the first one, or the first two, stands a name. -/
theorem colon_part (hi : AreSound none items) (hr : StartsBehind rest) (hp : part <:+ textOf items) (visible : part ≠ [])
    {text : List Char} (same : part ++ rest = ':' :: text) :
    (text.head? = some ':' ∨ ∃ word argument behind, IsNamed text word argument behind) ∧
      ∀ more, text = ':' :: more → more.head? = some ':' ∨ ∃ word argument behind, IsNamed more word argument behind := by
  have colon {tail : List Char} (suffix : (':' :: tail) <:+ textOf items) :
      tail ≠ [] ∧ ((tail ++ rest).head? = some ':' ∨ ∃ word argument behind, IsNamed (tail ++ rest) word argument behind) := by
    rcases colon_items hi hr suffix with colon | ⟨word, argument, behind, named, some⟩
    · refine ⟨?_, .inl (by rw [List.head?_append, colon]; rfl)⟩
      rintro rfl
      cases colon
    · exact ⟨some, .inr ⟨word, argument, behind, named⟩⟩
  obtain ⟨c, tail, rfl⟩ := List.exists_cons_of_ne_nil visible
  obtain ⟨rfl, rfl⟩ := List.cons.inj same
  obtain ⟨some, first⟩ := colon hp
  refine ⟨first, fun more same => ?_⟩
  obtain ⟨c, tail, rfl⟩ := List.exists_cons_of_ne_nil some
  obtain ⟨rfl, rfl⟩ := List.cons.inj same
  exact (colon ((List.suffix_cons _ _).trans hp)).2

theorem removal_none {names : List PseudoName} (hn : IsForeign names) (colons : Colons) (hi : AreSound none items)
    (hr : StartsBehind rest) (hp : part <:+ textOf items) (visible : part ≠ []) (previous : Option Char) :
    removal colons names previous (part ++ rest) = none := by
  rw [removal, pseudoRule]
  split
  · rfl
  · next text found =>
      have none : PseudoName.find? names text = .none := by
        refine hn.find?_none ?_
        unfold Colons.behind? at found
        split at found
        · next same =>
            obtain rfl := Option.some.inj found
            exact (colon_part hi hr hp visible same).2 _ rfl
        · cases found
        · cases found
        · next same =>
            split at found
            · cases found
            · obtain rfl := Option.some.inj found
              exact (colon_part hi hr hp visible same).1
        · cases found
      rw [none]

theorem vendorPseudo_part (hi : AreSound none items) (hr : StartsBehind rest) (hp : part <:+ textOf items)
    (visible : part ≠ []) (previous : Option Char) : vendorPseudo previous (part ++ rest) = none := by
  have undashed {text : List Char} (h : text.head? = some ':' ∨ ∃ word argument behind, IsNamed text word argument behind) :
      text.head? ≠ some '-' := by
    rcases h with colon | ⟨word, argument, behind, named⟩
    · rw [colon]
      decide
    · exact named.undashed
  exact vendorPseudo_none (fun text same => undashed (colon_part hi hr hp visible same).1)
    (fun text same => undashed ((colon_part hi hr hp visible same).2 text rfl)) previous

theorem getLast?_items (hi : AreSound none items) : (textOf items).getLast? ≠ some ':' := by
  intro last
  obtain ⟨front, same⟩ := List.getLast?_eq_some_iff.mp last
  have suffix : [':'] <:+ textOf items := ⟨front, same.symm⟩
  rcases colonsNamed_items hi [] suffix with colon | ⟨word, argument, behind, named⟩
  · cases colon
  · exact named.nonempty rfl

end

/-- A rule that finds the pseudo and nothing in items finds the pseudo alone. -/
theorem Surrounds.edits (h : Surrounds front back word argument) {rule : LocalRule}
    (none : ∀ {items rest part}, AreSound none items → StartsBehind rest → part <:+ textOf items → part ≠ [] →
      ∀ previous, rule previous (part ++ rest) = none)
    (empty : ∀ previous, rule previous [] = .none)
    (found : ∀ previous, previous ≠ some ':' → rule previous (spelling own word argument ++ textOf back) =
      some ((spelling own word argument).length, [])) :
    rule.edits (surrounded front back own word argument) =
      [⟨(textOf front).length, (spelling own word argument).length, []⟩] := by
  have visible : spelling own word argument ≠ [] := by simp [spelling, h.fits.nonempty]
  refine edits_single visible (getLast?_items h.soundFront) (fun previous part suffix some => ?_) found
    fun previous part suffix => ?_
  · exact none h.soundFront (startsBehind_spelling own word argument (textOf back)) suffix some previous
  · cases part with
    | nil => exact empty previous
    | cons c part =>
        have nothing : StartsBehind [] := .nil
        have all := none h.soundBack nothing suffix (List.cons_ne_nil _ _) previous
        rwa [List.append_nil] at all

theorem Surrounds.removal_edits (h : Surrounds front back word argument) {r : Removal} (hr : r ∈ removals)
    (hw : ⟨lower word, argument.isSome⟩ ∈ r.names) :
    (removal r.colons r.names).edits (surrounded front back r.colons word argument) =
      [⟨(textOf front).length, (spelling r.colons word argument).length, []⟩] := by
  have foreign := removals_foreign r hr
  refine h.edits (fun hi hr hp visible => removal_none foreign r.colons hi hr hp visible) (fun previous => ?_)
    fun previous hp => ?_
  · cases r.colons <;> rfl
  · rw [removal, pseudoRule_spelling foreign.table h.fits hp, actsOn, if_pos ⟨rfl, hw⟩, Option.map_some]

/-! The marks of vendors. -/

theorem beginsWith_iff {start text : List Char} :
    beginsWith start text = true ↔ start.map Char.toLower <+: text.map Char.toLower := by
  rw [beginsWith, beq_iff_eq, List.prefix_iff_eq_take, List.length_map, ← List.map_take, eq_comm]

theorem vendorMarks_apart : ∀ m ∈ vendorMarks, ∀ m' ∈ vendorMarks, m.toList.map Char.toLower <+: m'.toList.map Char.toLower →
    m = m' := by
  decide +kernel

/-- Of the marks of vendors, only one begins a text. -/
theorem find?_vendorMarks {mark : String} (hm : mark ∈ vendorMarks) {text : List Char}
    (h : beginsWith mark.toList text = true) :
    vendorMarks.find? (fun mark => beginsWith mark.toList text) = some mark := by
  cases found : vendorMarks.find? fun mark => beginsWith mark.toList text with
  | none => exact absurd h (List.find?_eq_none.mp found mark hm)
  | some other =>
      have begins := List.find?_some found
      change beginsWith other.toList text = true at begins
      have mem := List.mem_of_find?_eq_some found
      rcases List.prefix_or_prefix_of_prefix (beginsWith_iff.mp begins) (beginsWith_iff.mp h) with shorter | longer
      · rw [vendorMarks_apart other mem mark hm shorter]
      · rw [vendorMarks_apart mark hm other mem longer]

theorem vendorNames_marks : ∀ n ∈ vendorNames, ∃ mark ∈ vendorMarks, mark.toList = ':' :: n.toList ∧
    n.toList.map Char.toLower = n.toList := by
  intro n hn
  simp only [vendorNames, List.mem_cons, List.not_mem_nil, or_false] at hn
  rcases hn with rfl | rfl | rfl | rfl
  · exact ⟨":-ms-", by decide, rfl, rfl⟩
  · exact ⟨":-webkit-", by decide, rfl, rfl⟩
  · exact ⟨":-moz-", by decide, rfl, rfl⟩
  · exact ⟨":-o-", by decide, rfl, rfl⟩

theorem vendorSize?_spelling {mark run rest : List Char} {argument : Option (List Char)} (hm : lower mark ∈ vendorNames)
    (hr : ∀ c ∈ run, c.isAlphanum = true ∨ c = '-') (h : Fits (mark ++ run) argument rest) :
    vendorSize? (spelling .one (mark ++ run) argument ++ rest) = some (spelling .one (mark ++ run) argument).length := by
  obtain ⟨name, mem, chars, same⟩ := vendorNames_marks _ hm
  have text : spelling .one (mark ++ run) argument ++ rest = (':' :: mark) ++ (run ++ (argumentText argument ++ rest)) := by
    simp [spelling, Colons.text]
  have length : name.length = (':' :: mark).length := by
    rw [← String.length_toList, chars, List.length_cons, toList_lower, List.length_map, List.length_cons]
  have begins : beginsWith name.toList ((':' :: mark) ++ (run ++ (argumentText argument ++ rest))) = true := by
    rw [beginsWith_iff, chars, List.map_cons, same, toList_lower, List.map_append]
    exact List.prefix_append _ _
  have stops : (argumentText argument ++ rest).takeWhile (fun c => c.isAlphanum || c == '-') = [] := by
    have stop := h.tail.1
    cases start : argumentText argument ++ rest with
    | nil => rfl
    | cons c more =>
        rw [start] at stop
        have first := stop c rfl
        rw [isWordChar, Bool.or_eq_false_iff] at first
        rw [List.takeWhile_cons, first.1]
        rfl
  have word : (run ++ (argumentText argument ++ rest)).takeWhile (fun c => c.isAlphanum || c == '-') = run := by
    rw [List.takeWhile_append_of_pos fun c hc => by simpa using hr c hc, stops, List.append_nil]
  have size : (argument? (argumentText argument ++ rest)).getD 0 = (argumentText argument).length := by
    have tail := h.tail.2.1
    unfold tailSize? at tail
    split at tail
    · rw [tail]
      rfl
    · next closed =>
        obtain none := Option.some.inj tail
        have absent : argument? (argumentText argument ++ rest) = .none := by
          unfold argument?
          split
          · next opening => exact absurd (by rw [opening]; rfl) closed
          · rfl
        rw [absent, ← none]
        rfl
  rw [text, vendorSize?, find?_vendorMarks mem begins]
  dsimp only
  rw [length, List.drop_left, word, List.drop_left, size]
  simp [spelling, Colons.text]
  omega

theorem Surrounds.vendorPseudo_edits {mark run : List Char} (h : Surrounds front back (mark ++ run) argument)
    (hm : lower mark ∈ vendorNames) (hr : ∀ c ∈ run, c.isAlphanum = true ∨ c = '-') :
    vendorPseudo.edits (surrounded front back own (mark ++ run) argument) =
      [⟨(textOf front).length, (spelling own (mark ++ run) argument).length, []⟩] := by
  refine h.edits (fun hi hr hp visible => vendorPseudo_part hi hr hp visible) (fun _ => rfl) fun previous _ => ?_
  have size := vendorSize?_spelling hm hr h.fits
  cases own with
  | one =>
      obtain ⟨c, more, word, other⟩ := h.fits.head
      rw [word] at size ⊢
      unfold vendorPseudo
      split
      · next same => exact absurd (List.cons.inj (List.cons.inj same).2).1 other
      · rw [size]
        rfl
  | two =>
      simp only [spelling, Colons.text, List.cons_append, List.nil_append] at size ⊢
      rw [vendorPseudo, size]
      simp
      omega

/-! The repair. -/

/-- The first rules look for names that are not taken out, and for characters. -/
theorem Surrounds.first_idle (h : Surrounds front back word argument)
    (elements : own = .one → ⟨lower word, argument.isSome⟩ ∉ singleColonElements)
    (classes : own = .two → ⟨lower word, argument.isSome⟩ ∉ doubleColonClasses)
    (zeros : own = .one → ⟨lower word, argument.isSome⟩ ∉ zeroPositionClasses) (other : lower word ∉ positionNames) :
    ∀ rule ∈ repairRules.take 6, rule.edits (surrounded front back own word argument) = [] := by
  intro rule mem
  simp only [repairRules, List.take_succ_cons, List.take_zero, List.mem_cons, List.not_mem_nil, or_false] at mem
  rcases mem with rfl | rfl | rfl | rfl | rfl | rfl
  · exact h.table_idle mendElements_describes mendElements_counts elements
  · exact h.table_idle mendClasses_describes mendClasses_counts classes
  · exact h.table_idle mendZeros_describes mendZeros_counts zeros
  · exact h.zeroWidth_idle
  · exact h.quotedNegation_idle
  · exact h.selectorPosition_idle other

end

/-- A repair in which one rule makes one edit. -/
theorem repair_single {text out : List Char} {first later : List RepairRule} {rule : RepairRule} {e : Edit}
    (split : repairRules = first ++ rule :: later) (before : ∀ r ∈ first, r.edits text = [])
    (found : rule.edits text = [e]) (left : Edit.applyAll text [e] = out) (after : ∀ r ∈ later, r.edits out = []) :
    repair text = ⟨Text.trim out, 1, rule.kind.toList.map fun kind =>
      (kind, ⟨String.ofList text, String.ofList (e.matched text), String.ofList e.replacement⟩)⟩ := by
  have step : RepairRule.run text ⟨text, 0, []⟩ rule = ⟨out, 1, rule.kind.toList.map fun kind =>
      (kind, ⟨String.ofList text, String.ofList (e.matched text), String.ofList e.replacement⟩)⟩ := by
    rw [RepairRule.run]
    simp only [found, left, List.length_singleton, Nat.zero_add, List.nil_append]
    cases rule.kind <;> rfl
  have idle : first.foldl (RepairRule.run text) ⟨text, 0, []⟩ = ⟨text, 0, []⟩ := runs_idle text before
  rw [repair, split, List.foldl_append, idle, List.foldl_cons, step, runs_idle text after]

section
variable {front back : List Item} {own : Colons} {word : List Char} {argument : Option (List Char)}

/-- The rule that takes the pseudo out leaves the items, in which the later rules find nothing. -/
theorem Surrounds.repair (h : Surrounds front back word argument) {first later : List RepairRule} {rule : RepairRule}
    (split : repairRules = first ++ rule :: later) (late : ∀ r ∈ later, r ∈ repairRules.drop 3)
    (before : ∀ r ∈ first, r.edits (surrounded front back own word argument) = [])
    (found : rule.edits (surrounded front back own word argument) =
      [⟨(textOf front).length, (spelling own word argument).length, []⟩]) :
    repair (surrounded front back own word argument) = ⟨Text.trim (textOf front ++ textOf back), 1,
      rule.kind.toList.map fun kind => (kind, ⟨String.ofList (surrounded front back own word argument),
        String.ofList (spelling own word argument), ""⟩)⟩ := by
  have left : Edit.applyAll (surrounded front back own word argument)
      [⟨(textOf front).length, (spelling own word argument).length, []⟩] = textOf front ++ textOf back := by
    have whole : surrounded front back own word argument =
        (textOf front ++ spelling own word argument) ++ textOf back := (List.append_assoc _ _ _).symm
    rw [Edit.applyAll, Edit.applyFrom, Edit.applyFrom, Edit.stop, Nat.sub_zero, Nat.sub_zero, List.append_nil]
    congr 1
    · rw [surrounded, List.take_left]
    · rw [whole, ← List.length_append, List.drop_left]
  have sound : AreSound none (front ++ back) := by
    refine Row.append.mpr ⟨?_, h.soundBack⟩
    rw [Option.or_none]
    exact h.soundFront.standsBefore h.apart
  have matched : Edit.matched (surrounded front back own word argument)
      ⟨(textOf front).length, (spelling own word argument).length, []⟩ = spelling own word argument := by
    rw [Edit.matched, surrounded, List.drop_left, List.take_left]
  have idle := edits_idle sound
  rw [textOf_append] at idle
  rw [repair_single split before found left fun r hr => idle r (late r hr), matched]

/-! Each of the removable pseudos. -/

theorem vendor_dashed {mark : List Char} (run : List Char) (hm : lower mark ∈ vendorNames) :
    (lower (mark ++ run)).toList.head? = some '-' := by
  have dashed : ∀ n ∈ vendorNames, n.toList.head? = some '-' := by decide
  have first := dashed _ hm
  rw [toList_lower] at first
  rw [toList_lower, List.map_append, List.head?_append, first]
  rfl

theorem Surrounds.repair_vendor {mark run : List Char} (h : Surrounds front back (mark ++ run) argument)
    (hm : lower mark ∈ vendorNames) (hr : ∀ c ∈ run, c.isAlphanum = true ∨ c = '-') :
    Selector.repair (surrounded front back own (mark ++ run) argument) = ⟨Text.trim (textOf front ++ textOf back), 1,
      [(.vendorExtension, ⟨String.ofList (surrounded front back own (mark ++ run) argument),
        String.ofList (spelling own (mark ++ run) argument), ""⟩)]⟩ := by
  have undashed : ∀ n ∈ singleColonElements ++ doubleColonClasses ++ zeroPositionClasses,
      n.name.toList.head? ≠ some '-' := by decide +kernel
  have names : ∀ n ∈ positionNames, n.toList.head? ≠ some '-' := by decide
  have dashed : (lower (mark ++ run)).toList.head? = some '-' := vendor_dashed run hm
  have absent {names : List PseudoName} (sub : names ⊆ singleColonElements ++ doubleColonClasses ++ zeroPositionClasses) :
      ⟨lower (mark ++ run), argument.isSome⟩ ∉ names := fun mem => undashed _ (sub mem) dashed
  have before : ∀ rule ∈ repairRules.take 6, rule.edits (surrounded front back own (mark ++ run) argument) = [] :=
    h.first_idle (fun _ => absent (by simp)) (fun _ => absent (by simp)) (fun _ => absent (by simp))
      fun mem => names _ mem dashed
  have split : repairRules =
      repairRules.take 6 ++ ⟨some .vendorExtension, vendorPseudo.edits⟩ :: repairRules.drop 7 := rfl
  exact h.repair split (fun r hr => List.drop_subset_drop_left _ (by decide) hr) before (h.vendorPseudo_edits hm hr)

theorem removals_rules : repairRules.drop 8 = removals.map fun r => ⟨r.kind, (removal r.colons r.names).edits⟩ := rfl

/-- A name is taken out by one rule only. -/
theorem removals_apart : removals.Pairwise fun a b => a.colons = b.colons → ∀ n ∈ b.names, n ∉ a.names := by
  decide +kernel

theorem removals_late : ∀ r ∈ removals, ∀ n ∈ r.names, (r.colons = .one → n ∉ singleColonElements) ∧
    (r.colons = .two → n ∉ doubleColonClasses) ∧ (r.colons = .one → n ∉ zeroPositionClasses) ∧ n.name ∉ positionNames ∧
      n.name.toList.head? ≠ some '-' ∧ n ∉ [function "not"] := by
  decide +kernel

theorem Surrounds.repair_named (h : Surrounds front back word argument) {r : Removal} (hr : r ∈ removals)
    (hw : ⟨lower word, argument.isSome⟩ ∈ r.names) :
    Selector.repair (surrounded front back r.colons word argument) = ⟨Text.trim (textOf front ++ textOf back), 1,
      r.kind.toList.map fun kind => (kind, ⟨String.ofList (surrounded front back r.colons word argument),
        String.ofList (spelling r.colons word argument), ""⟩)⟩ := by
  obtain ⟨elements, classes, zeros, other, undashed, no⟩ := removals_late r hr _ hw
  have first := h.first_idle elements classes zeros other
  have vendor : vendorPseudo.edits (surrounded front back r.colons word argument) = [] := by
    refine h.vendorPseudo_idle fun dash => undashed ?_
    rw [toList_lower, List.head?_map, dash]
    rfl
  have negation : emptyNegation.edits (surrounded front back r.colons word argument) = [] :=
    h.table_idle emptyNegation_describes mendNothing_counts fun _ => no
  obtain ⟨before, after, parts⟩ := List.append_of_mem hr
  have removed : ∀ b ∈ before, (removal b.colons b.names).edits (surrounded front back r.colons word argument) = [] := by
    intro b mem
    have foreign := removals_foreign b (by rw [parts]; exact List.mem_append_left _ mem)
    refine h.table_idle (foreign.describes b.colons) mendNothing_counts fun same => ?_
    have apart := removals_apart
    rw [parts] at apart
    exact (List.pairwise_append.mp apart).2.2 b mem r List.mem_cons_self same.symm _ hw
  have split : repairRules = (repairRules.take 8 ++ before.map fun r => ⟨r.kind, (removal r.colons r.names).edits⟩) ++
      ⟨r.kind, (removal r.colons r.names).edits⟩ :: after.map fun r => ⟨r.kind, (removal r.colons r.names).edits⟩ := by
    have rules := removals_rules
    rw [parts, List.map_append, List.map_cons] at rules
    rw [List.append_assoc, ← rules, List.take_append_drop]
  refine h.repair split (fun rule mem => ?_) (fun rule mem => ?_)
    (h.removal_edits hr hw)
  · refine List.drop_subset_drop_left repairRules (show 3 ≤ 8 by decide) ?_
    rw [removals_rules, parts, List.map_append, List.map_cons]
    exact List.mem_append_right _ (List.mem_cons_of_mem _ mem)
  · rcases List.mem_append.mp mem with mem | mem
    · have eight : repairRules.take 8 = repairRules.take 6 ++
          [⟨some .vendorExtension, vendorPseudo.edits⟩, ⟨some .emptyNegation, emptyNegation.edits⟩] := rfl
      rw [eight, List.mem_append, List.mem_cons, List.mem_singleton] at mem
      rcases mem with mem | rfl | rfl
      · exact first rule mem
      · exact vendor
      · exact negation
    · obtain ⟨b, inside, rfl⟩ := List.mem_map.mp mem
      exact removed b inside

end

theorem vendorNames_written : ∀ n ∈ vendorNames, n.toList ≠ [] ∧ ∀ c ∈ n.toList, isWordChar c = true := by
  have checked : (vendorNames.all fun n => decide (n.toList ≠ []) && n.toList.all isWordChar) = true := by decide +kernel
  intro n hn
  have name := List.all_eq_true.mp checked n hn
  rwa [Bool.and_eq_true, decide_eq_true_eq, List.all_eq_true] at name

theorem IsRemovable.fits {own : Colons} {word rest : List Char} {argument : Option (List Char)} {kind : Option RepairKind}
    (h : IsRemovable own word argument kind) (hr : StartsBehind rest) (ha : ∀ a, argument = some a → IsPassive a) :
    Fits word argument rest := by
  suffices named : word ≠ [] ∧ ∀ c ∈ word, isWordChar c = true from
    ⟨named.1, named.2, fun a some => (ha a some).pairs.isClosed, fun _ => hr⟩
  cases h with
  | vendor known letters =>
      obtain ⟨visible, chars⟩ := vendorNames_written _ known
      rw [toList_lower] at visible chars
      refine ⟨fun none => visible ?_, fun c hc => ?_⟩
      · rw [(List.append_eq_nil_iff.mp none).1, List.map_nil]
      · rcases List.mem_append.mp hc with hc | hc
        · exact isWordChar_of_toLower (chars _ (List.mem_map_of_mem hc))
        · rw [isWordChar, Bool.or_eq_true, Bool.or_eq_true, beq_iff_eq]
          exact .inl (letters c hc)
  | named mem known =>
      have foreign := removals_foreign _ mem
      refine ⟨?_, fun c hc => isWordChar_of_toLower (foreign.table _ known _ ?_).1⟩
      · rintro rfl
        have empty : lower [] = "" := by rw [← String.toList_inj, toList_lower]; rfl
        rw [empty] at known
        exact foreign.unknown "" List.mem_cons_self _ known
      · rw [toList_lower]
        exact List.mem_map_of_mem hc

/-- A removable pseudo behind a simple selector of an accepted text goes without a trace. -/
theorem repair_removable {text : List Char} {list : List Complex} {n : Nat} {own : Colons} {word : List Char}
    {argument : Option (List Char)} {kind : Option RepairKind} (hu : IsUnquoted text) (hs : selectors 0 text = .ok list)
    (hn : SimpleEndsAt text n) (hp : IsRemovable own word argument kind) (ha : ∀ a, argument = some a → IsPassive a) :
    repair (text.take n ++ (spelling own word argument ++ text.drop n)) = ⟨Text.trim text, 1,
      kind.toList.map fun kind => (kind,
        ⟨String.ofList (text.take n ++ (spelling own word argument ++ text.drop n)),
          String.ofList (spelling own word argument), ""⟩)⟩ := by
  obtain ⟨front, back, parts⟩ := hn.parts hu hs
  have surrounds : Surrounds front back word argument :=
    ⟨parts.soundFront.standsBefore (fun c hc => by cases hc), parts.soundBack, parts.undamagedFront, parts.undamagedBack,
      parts.apart, hp.fits parts.apart ha, ha⟩
  have whole : text = textOf front ++ textOf back := by rw [← parts.taken, ← parts.dropped, List.take_append_drop]
  have inserted : text.take n ++ (spelling own word argument ++ text.drop n) = surrounded front back own word argument := by
    rw [parts.taken, parts.dropped, surrounded]
  rw [inserted, congrArg Text.trim whole]
  cases hp with
  | vendor known letters => exact surrounds.repair_vendor known letters
  | named mem known => exact surrounds.repair_named mem known

/-- A vendor's pseudo within a selector, behind its second type selector. -/
theorem repair_removable_vendor :
    IsUnquoted "a > b.c".toList ∧
      selectors 0 "a > b.c".toList = .ok [⟨[.element "a"], [(.child, [.element "b", .className "c"])]⟩] ∧
      SimpleEndsAt "a > b.c".toList 5 ∧
      IsRemovable .two "-webkit-x".toList (some ['(', 'y', ')']) (some .vendorExtension) ∧
      (∀ a, some ['(', 'y', ')'] = some a → IsPassive a) ∧
      repair "a > b::-webkit-x((y)).c".toList = ⟨"a > b.c".toList, 1,
        [(.vendorExtension, ⟨"a > b::-webkit-x((y)).c", "::-webkit-x((y))", ""⟩)]⟩ := by
  have unquoted : IsUnquoted "a > b.c".toList := isUnquoted_of_all (by decide)
  have read : selectors 0 "a > b.c".toList = .ok [⟨[.element "a"], [(.child, [.element "b", .className "c"])]⟩] := by cbv
  have start : CompoundAt "a > b.c".toList 0 := .first
  have one : compound 0 "a > b.c".toList = .ok ⟨[.element "a"], 1⟩ := by cbv
  have sign : joint (spaces " > b.c".toList != 0) "> b.c".toList = (.combinator .child, 1) := by cbv
  have second : CompoundAt "a > b.c".toList 4 := .joined start one sign
  have two : typeSelector 4 "b.c".toList = .ok ⟨[.element "b"], 1⟩ := by cbv
  have ends : SimpleEndsAt "a > b.c".toList 5 := .type second two (List.cons_ne_nil _ _)
  have mark : lower "-webkit-".toList ∈ vendorNames := by decide +kernel
  have removable : IsRemovable .two "-webkit-x".toList (some ['(', 'y', ')']) (some .vendorExtension) :=
    .vendor mark (show ∀ c ∈ ['x'], c.isAlphanum = true ∨ c = '-' from List.forall_mem_singleton.mpr (by decide))
  have pairs : Pairs ['(', 'y', ')'] := .pair (.other (by decide) (by decide) .nil) .nil
  have passive : ∀ a, some ['(', 'y', ')'] = some a → IsPassive a := by
    intro a same
    obtain rfl := Option.some.inj same
    exact ⟨pairs, by simp, by simp, by simp⟩
  have removed := repair_removable unquoted read ends removable passive
  have spelled : spelling .two "-webkit-x".toList (some ['(', 'y', ')']) = "::-webkit-x((y))".toList := by decide +kernel
  have inserted : "a > b.c".toList.take 5 ++ ("::-webkit-x((y))".toList ++ "a > b.c".toList.drop 5) =
      "a > b::-webkit-x((y)).c".toList := by decide +kernel
  have trimmed : Text.trim "a > b.c".toList = "a > b.c".toList := by decide
  rw [spelled, inserted, trimmed, Option.toList_some, List.map_singleton, String.ofList_toList, String.ofList_toList] at removed
  exact ⟨unquoted, read, ends, removable, passive, removed⟩

end StyleAudit.Selector
