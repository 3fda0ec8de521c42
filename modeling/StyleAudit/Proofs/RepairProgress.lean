import StyleAudit.Proofs.FoundPseudos
import StyleAudit.Proofs.InspectionCourse
/-!
Progress of repairs. A repair that makes an edit leaves another text: what the later rules take away no rule puts back,
and the first rules do not undo each other's work.
-/
namespace StyleAudit.Selector

/-! Weights of texts. -/

/-- The weight of a text is the sum of those of its characters. -/
def weigh (weight : Char → Int) (text : List Char) : Int := (text.map weight).sum

section
variable {weight : Char → Int} {loss : Int} {text : List Char}

@[simp] theorem weigh_nil : weigh weight [] = 0 := rfl

@[simp] theorem weigh_cons (c : Char) : weigh weight (c :: text) = weight c + weigh weight text := by
  rw [weigh, List.map_cons, List.sum_cons, weigh]

@[simp] theorem weigh_append (front back : List Char) :
    weigh weight (front ++ back) = weigh weight front + weigh weight back := by
  rw [weigh, List.map_append, List.sum_append, weigh, weigh]

theorem weigh_eq_zero (h : ∀ c ∈ text, weight c = 0) : weigh weight text = 0 := by
  induction text with
  | nil => rfl
  | cons c text ih => rw [weigh_cons, h c List.mem_cons_self, ih fun d hd => h d (List.mem_cons_of_mem c hd), add_zero]

/-- Blanks that weigh nothing may be trimmed. -/
theorem weigh_trim (blank : ∀ c, Text.isBlank c = true → weight c = 0) (text : List Char) :
    weigh weight (Text.trim text) = weigh weight text := by
  obtain ⟨before, behind, parts, hb, hr⟩ := Text.trim_parts text
  have sum := congrArg (weigh weight) parts
  rw [weigh_append, weigh_append, weigh_eq_zero fun c hc => blank c (hb c hc), weigh_eq_zero fun c hc => blank c (hr c hc)]
    at sum
  omega

/-! What rules take off. -/

/-- Each edit takes at least so much off a text. -/
def Lightens (weight : Char → Int) (loss : Int) (edits : List Char → List Edit) : Prop := ∀ text,
  weigh weight (Edit.applyAll text (edits text)) + loss * (edits text).length ≤ weigh weight text

/-- What a local rule replaces stands at the start of the text and is by so much heavier than what takes its place. -/
def Relieves (weight : Char → Int) (loss : Int) (rule : LocalRule) : Prop := ∀ previous text size replacement,
  rule previous text = some (size, replacement) → ∃ front rest, text = front ++ rest ∧ size = front.length ∧ front ≠ [] ∧
    weigh weight replacement + loss ≤ weigh weight front

theorem Relieves.sweeps {rule : LocalRule} (h : Relieves weight loss rule) (previous : Option Char) (text : List Char) :
    ∃ out n, Sweeps rule previous text out n :=
  exists_sweep (fun previous text size replacement found => by
    obtain ⟨front, rest, cut, size, visible, -⟩ := h previous text size replacement found
    exact ⟨front, rest, cut, size, visible⟩) previous text

theorem Relieves.weigh_sweep {rule : LocalRule} (h : Relieves weight loss rule) {previous : Option Char}
    {out : List Char} {n : Nat} (sweep : Sweeps rule previous text out n) :
    weigh weight out + loss * n ≤ weigh weight text := by
  induction sweep with
  | done => simp
  | keep _ _ ih =>
      rw [weigh_cons, weigh_cons]
      omega
  | edit _ found _ ih =>
      obtain ⟨front, rest, cut, size, -, relief⟩ := h _ _ _ _ found
      obtain ⟨rfl, rfl⟩ := List.append_inj cut size
      rw [weigh_append, weigh_append, Nat.cast_succ, mul_add, mul_one]
      omega

theorem Relieves.lightens {rule : LocalRule} (h : Relieves weight loss rule) : Lightens weight loss rule.edits := by
  intro text
  obtain ⟨out, n, sweep⟩ := h.sweeps none text
  obtain ⟨same, count⟩ := sweep.edits 0
  have sum := h.weigh_sweep sweep
  rw [← same, ← count] at sum
  exact sum

theorem relieves_pseudoRule {colons : Colons} {names : List PseudoName} {replace : List Char → Option (List Char)}
    (hn : IsNameTable names)
    (h : ∀ word argument rest replacement, ⟨lower word, argument.isSome⟩ ∈ names → Fits word argument rest →
      replace (spelling colons word argument) = some replacement →
        weigh weight replacement + loss ≤ weigh weight (spelling colons word argument)) :
    Relieves weight loss (pseudoRule colons names replace) := by
  intro previous text size replacement found
  obtain ⟨word, argument, rest, rfl, mem, rfl, acts, fits, -⟩ := pseudoRule_some hn found
  exact ⟨spelling colons word argument, rest, rfl, rfl, by simp [spelling, fits.nonempty],
    h word argument rest replacement mem fits acts⟩

theorem weigh_runs (before : List Char) {rules : List RepairRule} (h : ∀ rule ∈ rules, Lightens weight loss rule.edits)
    (r : Repairing) : weigh weight (rules.foldl (RepairRule.run before) r).text +
      loss * (rules.foldl (RepairRule.run before) r).count ≤ weigh weight r.text + loss * r.count := by
  induction rules generalizing r with
  | nil => exact le_refl _
  | cons rule rules ih =>
      have first := h rule List.mem_cons_self r.text
      have rest := ih (fun other mem => h other (List.mem_cons_of_mem rule mem)) (RepairRule.run before r rule)
      have count : ((RepairRule.run before r rule).count : Int) = r.count + (rule.edits r.text).length := by
        rw [count_run, Nat.cast_add]
      have text : (RepairRule.run before r rule).text = Edit.applyAll r.text (rule.edits r.text) := rfl
      rw [count, text, mul_add] at rest
      rw [List.foldl_cons]
      omega

/-- Rules whose edits all take off weight, behind rules that put none on, make no edit if the text comes out as it was. -/
theorem runs_of_lightens (blank : ∀ c, Text.isBlank c = true → weight c = 0) {first later : List RepairRule}
    (hf : ∀ rule ∈ first, Lightens weight 0 rule.edits) (hl : ∀ rule ∈ later, Lightens weight 1 rule.edits)
    (before : List Char) (same : Text.trim ((first ++ later).foldl (RepairRule.run before) ⟨text, 0, []⟩).text = text) :
    (first ++ later).foldl (RepairRule.run before) ⟨text, 0, []⟩ = first.foldl (RepairRule.run before) ⟨text, 0, []⟩ := by
  rw [List.foldl_append] at same ⊢
  have start := weigh_runs before hf ⟨text, 0, []⟩
  generalize first.foldl (RepairRule.run before) ⟨text, 0, []⟩ = r at *
  have rest := weigh_runs before hl r
  have kept := weigh_trim blank (later.foldl (RepairRule.run before) r).text
  rw [same] at kept
  dsimp only at start
  apply runs_eq_self
  have grows := count_le_runs before r later
  omega

end

/-! Characters that only go. -/

/-- A character that no rule writes and that is not trimmed. -/
def isLasting (c : Char) : Bool := !(Text.isBlank c || [':', '0', 'n', '(', ')'].contains c)

def lasting (c : Char) : Int := if isLasting c then 1 else 0

theorem isLasting_iff {c : Char} : isLasting c = true ↔ Text.isBlank c = false ∧ c.toNat ≠ 58 ∧ c.toNat ≠ 48 ∧
    c.toNat ≠ 110 ∧ c.toNat ≠ 40 ∧ c.toNat ≠ 41 := by
  simp [isLasting, char_eq_iff]

theorem lasting_of_blank (c : Char) (h : Text.isBlank c = true) : lasting c = 0 := by
  simp [lasting, isLasting, h]

theorem isLasting_of_toLower {c : Char} (h : isLasting c.toLower = true) : isLasting c = true := by
  by_cases upper : 65 ≤ c.toNat ∧ c.toNat ≤ 90
  · rw [isLasting_iff, Bool.eq_false_iff, Ne, isBlank_iff]
    omega
  · rwa [toLower_eq_self upper] at h

theorem weigh_lasting_nonneg (text : List Char) : 0 ≤ weigh lasting text := by
  induction text with
  | nil => exact le_refl _
  | cons c text ih =>
      have here : 0 ≤ lasting c := by rw [lasting]; split <;> omega
      rw [weigh_cons]
      omega

theorem weigh_lasting_pos {text : List Char} (h : ∃ c ∈ text, isLasting c = true) : 1 ≤ weigh lasting text := by
  obtain ⟨c, mem, lasts⟩ := h
  obtain ⟨before, behind, rfl⟩ := List.append_of_mem mem
  have front := weigh_lasting_nonneg before
  have back := weigh_lasting_nonneg behind
  rw [weigh_append, weigh_cons, lasting, if_pos lasts]
  omega

theorem isLasting_word {word : List Char} {name : String} (same : lower word = name)
    (h : ∃ c ∈ name.toList, isLasting c = true) : ∃ c ∈ word, isLasting c = true := by
  obtain ⟨c, mem, lasts⟩ := h
  rw [← same, toList_lower] at mem
  obtain ⟨d, here, rfl⟩ := List.mem_map.mp mem
  exact ⟨d, here, isLasting_of_toLower lasts⟩

theorem mem_spelling {c : Char} {word : List Char} (h : c ∈ word) (own : Colons) (argument : Option (List Char)) :
    c ∈ spelling own word argument := List.mem_append_right _ (List.mem_append_left _ h)

/-- A pseudo that goes takes the letters of its name along. -/
theorem relieves_removal {colons : Colons} {names : List PseudoName} {replace : List Char → Option (List Char)}
    (hn : IsNameTable names) (lasts : (names.all fun n => n.name.toList.any isLasting) = true)
    (gone : ∀ matched replacement, replace matched = some replacement → replacement = []) :
    Relieves lasting 1 (pseudoRule colons names replace) := by
  refine relieves_pseudoRule hn fun word argument rest replacement mem fits acts => ?_
  obtain ⟨c, name, lasts⟩ := List.any_eq_true.mp (List.all_eq_true.mp lasts _ mem)
  obtain ⟨d, here, lasts⟩ := isLasting_word rfl ⟨c, name, lasts⟩
  rw [gone _ _ acts, weigh_nil]
  have pos := weigh_lasting_pos ⟨d, mem_spelling here colons argument, lasts⟩
  omega

theorem relieves_zeroWidth : Relieves lasting 1 zeroWidth := by
  intro previous text size replacement found
  cases text with
  | nil => cases found
  | cons c rest =>
      rw [zeroWidth] at found
      split at found
      · next narrow =>
          obtain ⟨rfl, rfl⟩ := Prod.mk.inj (Option.some.inj found)
          have lasts : isLasting c = true := by
            rw [Char.le_def, Char.le_def, UInt32.le_iff_toNat_le, UInt32.le_iff_toNat_le] at narrow
            have bounds : 0x200b ≤ c.toNat ∧ c.toNat ≤ 0x200d := narrow
            rw [isLasting_iff, Bool.eq_false_iff, Ne, isBlank_iff]
            omega
          refine ⟨[c], rest, rfl, rfl, List.cons_ne_nil _ _, ?_⟩
          have pos := weigh_lasting_pos ⟨c, List.mem_singleton_self c, lasts⟩
          rw [weigh_nil]
          omega
      · cases found

theorem relieves_vendorPseudo : Relieves lasting 1 vendorPseudo := by
  intro previous text size replacement found
  obtain ⟨own, mark, run, argument, rest, known, heads, rfl, rfl⟩ := vendorPseudo_some found
  have dashed := vendor_dashed run known
  obtain ⟨c, mem, lasts⟩ := isLasting_word rfl ⟨'-', List.mem_of_mem_head? dashed, by decide⟩
  have pos := weigh_lasting_pos ⟨c, mem_spelling mem own argument, lasts⟩
  refine ⟨spelling own (mark ++ run) argument, rest, heads.text, rfl, List.ne_nil_of_mem (mem_spelling mem own argument), ?_⟩
  rw [weigh_nil]
  omega

theorem lightens_quotedNegation : Lightens lasting 1 quotedNegation := by
  intro text
  by_cases some : quotedNegation text = []
  · simp [some]
  · obtain ⟨front, word, quote, inner, rest, -, quoted, -, rfl, -, edits⟩ := quotedNegation_some some
    have lasts : lasting quote = 1 := by rcases quoted with rfl | rfl <;> rfl
    rw [edits, applyAll_single]
    simp only [spelling, argumentText, weigh_append, weigh_cons, weigh_nil, lasts, List.length_singleton]
    omega

theorem lightens_selectorPosition : Lightens lasting 1 selectorPosition := by
  intro text
  by_cases some : selectorPosition text = []
  · simp [some]
  · obtain ⟨front, word, mark, inner, rest, -, marked, rfl, -, edits⟩ := selectorPosition_some some
    have lasts : lasting mark = 1 := by rcases marked with rfl | rfl <;> rfl
    have new : weigh lasting "0n".toList = 0 := rfl
    have nonneg := weigh_lasting_nonneg inner
    rw [edits, applyAll_single]
    simp only [spelling, argumentText, weigh_append, weigh_cons, weigh_nil, lasts, List.length_singleton, new]
    omega

/-- The rules after the third take lasting characters away with every edit. -/
theorem lightens_later : ∀ rule ∈ repairRules.drop 3, Lightens lasting 1 rule.edits := by
  have removal_ {colons : Colons} {names : List PseudoName} (table : (names.all fun n =>
      n.name != "" && n.name.toList.all fun c => isWordChar c && c.toLower == c) = true)
      (lasts : (names.all fun n => n.name.toList.any isLasting) = true) :
      Lightens lasting 1 (removal colons names).edits :=
    (relieves_removal (isNameTable_of_all table) lasts fun _ _ same => (Option.some.inj same).symm).lightens
  intro rule mem
  simp only [repairRules, List.drop_succ_cons, List.drop_zero, List.mem_cons, List.not_mem_nil, or_false] at mem
  rcases mem with rfl | rfl | rfl | rfl | rfl | rfl | rfl | rfl | rfl
  · exact relieves_zeroWidth.lightens
  · exact lightens_quotedNegation
  · exact lightens_selectorPosition
  · exact relieves_vendorPseudo.lightens
  · refine (relieves_removal (isNameTable_of_all (by decide +kernel)) (by decide +kernel) fun matched replacement acts => ?_).lightens
    split at acts
    · exact (Option.some.inj acts).symm
    · cases acts
  all_goals exact removal_ (by decide +kernel) (by decide +kernel)

/-! The first three rules. -/

section
variable {weight : Char → Int} {loss : Int}

theorem singleColonElements_table : IsNameTable singleColonElements := isNameTable_of_all (by decide +kernel)

theorem doubleColonClasses_table : IsNameTable doubleColonClasses := isNameTable_of_all (by decide +kernel)

theorem relieves_secondColon (weight : Char → Int) (colon : weight ':' = 0) : Relieves weight 0 secondColon := by
  refine relieves_pseudoRule singleColonElements_table fun word argument rest replacement _ _ acts => ?_
  obtain rfl := Option.some.inj acts
  rw [weigh_cons, colon]
  omega

theorem relieves_oneColon (weight : Char → Int) (colon : weight ':' = 0) : Relieves weight 0 oneColon := by
  refine relieves_pseudoRule doubleColonClasses_table fun word argument rest replacement _ _ acts => ?_
  obtain rfl := Option.some.inj acts
  simp only [spelling, Colons.text, List.cons_append, List.nil_append, List.drop_succ_cons, List.drop_zero, weigh_cons,
    colon]
  omega

theorem relieves_zeroPosition (blank : ∀ c, Text.isBlank c = true → weight c = 0) (zero : weight '0' = 0)
    (n : weight 'n' + loss ≤ 0) : Relieves weight loss zeroPosition := by
  refine relieves_pseudoRule (isNameTable_of_all (by decide +kernel)) fun word argument rest replacement mem fits acts => ?_
  have functional : ∀ n ∈ zeroPositionClasses, n.functional = true := by decide
  obtain ⟨a, rfl⟩ := Option.isSome_iff_exists.mp (functional _ mem)
  rw [splitArgument_spelling fits] at acts
  dsimp only at acts
  split at acts
  · next position =>
      obtain rfl := Option.some.inj acts
      have new : weigh weight "(0n)".toList = weight '(' + (weight '0' + (weight 'n' + (weight ')' + 0))) := rfl
      have old := weigh_trim blank a
      rw [position, weigh_cons, weigh_nil, zero] at old
      simp only [spelling, argumentText, weigh_append, weigh_cons, weigh_nil, new, zero]
      omega
  · cases acts

/-- A letter that a mended position has more than before, counted down. -/
def spent (c : Char) : Int := if c = 'n' then -1 else 0

theorem spent_of_blank (c : Char) (h : Text.isBlank c = true) : spent c = 0 := by
  rw [spent, if_neg]
  rintro rfl
  exact absurd h (by decide)

/-- A weight for blanks alone. -/
def blanks (c : Char) : Int := if Text.isBlank c then 1 else 0

/-! The first two rules. -/

/-- The two ways to go on with a sweep. -/
theorem Sweeps.start {rule : LocalRule} {previous : Option Char} {c : Char} {rest out : List Char} {n : Nat}
    (h : Sweeps rule previous (c :: rest) out n) :
    (∃ out', rule previous (c :: rest) = none ∧ out = c :: out' ∧ Sweeps rule (some c) rest out' n) ∨
      ∃ size replacement out', rule previous (c :: rest) = some (size, replacement) ∧ out = replacement ++ out' := by
  generalize same : c :: rest = text at h
  cases h with
  | done => cases same
  | keep none sweep =>
      obtain ⟨rfl, rfl⟩ := List.cons.inj same
      exact .inl ⟨_, none, rfl, sweep⟩
  | edit _ found _ => exact .inr ⟨_, _, _, found, rfl⟩

theorem Sweeps.of_nil {rule : LocalRule} {previous : Option Char} {out : List Char} {n : Nat}
    (h : Sweeps rule previous [] out n) : out = [] ∧ n = 0 := by
  generalize same : [] = text at h
  cases h with
  | done => exact ⟨rfl, rfl⟩
  | keep => cases same
  | edit visible => exact absurd (List.append_eq_nil_iff.mp same.symm).1 visible

/-- The rule for single colons leaves the first character of a text. -/
theorem Sweeps.head {previous : Option Char} {text out : List Char} {n : Nat} (h : Sweeps secondColon previous text out n) :
    out.head? = text.head? := by
  cases text with
  | nil => rw [h.of_nil.1]
  | cons c rest =>
      rcases h.start with ⟨out', -, rfl, -⟩ | ⟨size, replacement, out', found, rfl⟩
      · rfl
      · obtain ⟨word, argument, behind, text, -, -, acts, -⟩ := pseudoRule_some singleColonElements_table found
        obtain rfl := Option.some.inj acts
        rw [text]
        rfl

theorem Fits.of_head {word rest other : List Char} {argument : Option (List Char)} (h : Fits word argument rest)
    (same : other.head? = rest.head?) : Fits word argument other :=
  ⟨h.nonempty, h.word, h.closed, fun none c first => h.ends none c (same ▸ first)⟩

/-- The rule for double colons passes over what the rule for single ones has mended. -/
theorem Sweeps.mended {previous : Option Char} {word rest out : List Char} {argument : Option (List Char)} {n : Nat}
    (fits : Fits word argument rest) (mem : ⟨lower word, argument.isSome⟩ ∈ singleColonElements)
    (h : Sweeps oneColon previous (spelling .two word argument ++ rest) out n) : ∃ more, out = ':' :: ':' :: more := by
  have foreign : ∀ n ∈ singleColonElements, n ∉ doubleColonClasses := by decide +kernel
  obtain ⟨c, more, rfl, other⟩ := fits.head
  have first : oneColon previous (spelling .two (c :: more) argument ++ rest) = none := by
    -- a rule for two colons does not ask what is in front of them
    have anywhere : oneColon previous (spelling .two (c :: more) argument ++ rest) =
        oneColon none (spelling .two (c :: more) argument ++ rest) := rfl
    rw [anywhere, oneColon, pseudoRule_spelling doubleColonClasses_table.table fits (by simp), actsOn,
      if_neg fun both => foreign _ mem both.2]
    rfl
  rcases h.start with ⟨out', -, rfl, behind⟩ | ⟨size, replacement, out', found, -⟩
  · rcases behind.start with ⟨more, -, rfl, -⟩ | ⟨size, replacement, out', found, -⟩
    · exact ⟨more, rfl⟩
    · have second : oneColon (some ':') (':' :: c :: (more ++ argumentText argument ++ rest)) = none :=
        pseudoRule_second other _
      cases second.symm.trans found
  · cases first.symm.trans found

/-- The rules for colons do not undo each other's edits: where the first of all edits is, another character follows the
colon than before. -/
theorem Sweeps.colons {previous : Option Char} {text mid out : List Char} {n : Nat}
    (h : Sweeps secondColon previous text mid n) {previous' : Option Char} {m : Nat}
    (h' : Sweeps oneColon previous' mid out m) (same : out = text) : n = 0 ∧ m = 0 := by
  induction h generalizing previous' out m with
  | done => exact ⟨rfl, h'.of_nil.2⟩
  | @keep previous c rest mid n none sweep ih =>
      generalize start : c :: mid = mid' at h'
      cases h' with
      | done => cases start
      | keep none' sweep' =>
          obtain ⟨rfl, rfl⟩ := List.cons.inj start
          exact ih sweep' (List.cons.inj same).2
      | @edit _ front behind replacement out m visible found sweep' =>
          obtain ⟨word, argument, rest', text, -, -, acts, fits, -⟩ := pseudoRule_some doubleColonClasses_table found
          obtain rfl := Option.some.inj acts
          obtain ⟨d, more, rfl, other⟩ := fits.head
          have second : mid.head? = some ':' := by
            rw [(List.cons.inj (start.trans text)).2]
            rfl
          have first : rest.head? = some d := by
            rw [← (List.cons.inj same).2]
            rfl
          rw [sweep.head, first] at second
          exact absurd (Option.some.inj second) other
  | edit visible found sweep ih =>
      obtain ⟨word, argument, rest', text, mem, size, acts, fits, -⟩ := pseudoRule_some singleColonElements_table found
      obtain ⟨rfl, rfl⟩ := List.append_inj text size
      obtain rfl := Option.some.inj acts
      obtain ⟨more, rfl⟩ := (h' : Sweeps oneColon previous' (spelling .two word argument ++ _) out m).mended
        (fits.of_head sweep.head) mem
      obtain ⟨d, letters, rfl, other⟩ := fits.head
      exact absurd (List.cons.inj (List.cons.inj same).2).1.symm other

/-! A whole repair. -/

theorem lightens_colons (weight : Char → Int) (free : weight ':' = 0) :
    ∀ rule ∈ repairRules.take 2, Lightens weight 0 rule.edits := by
  intro rule mem
  simp only [repairRules, List.take_succ_cons, List.take_zero, List.mem_cons, List.not_mem_nil, or_false] at mem
  rcases mem with rfl | rfl
  · exact (relieves_secondColon weight free).lightens
  · exact (relieves_oneColon weight free).lightens

theorem lightens_position {weight : Char → Int} (loss : Int) (blank : ∀ c, Text.isBlank c = true → weight c = 0)
    (zero : weight '0' = 0) (n : weight 'n' + loss ≤ 0) :
    ∀ rule ∈ (repairRules.take 3).drop 2, Lightens weight loss rule.edits := by
  intro rule mem
  simp only [repairRules, List.take_succ_cons, List.take_zero, List.drop_succ_cons, List.drop_zero, List.mem_singleton] at mem
  rw [mem]
  exact (relieves_zeroPosition blank zero n).lightens

/-- If the text comes out as it was, no rule behind the ones for colons has made an edit. -/
theorem runs_same {colons position later : List RepairRule} (free : ∀ rule ∈ colons, Lightens spent 0 rule.edits)
    (mended : ∀ rule ∈ position, Lightens spent 1 rule.edits) (first : ∀ rule ∈ colons ++ position, Lightens lasting 0 rule.edits)
    (removed : ∀ rule ∈ later, Lightens lasting 1 rule.edits) (before text : List Char)
    (same : Text.trim ((colons ++ position ++ later).foldl (RepairRule.run before) ⟨text, 0, []⟩).text = text) :
    (colons ++ position ++ later).foldl (RepairRule.run before) ⟨text, 0, []⟩ =
      colons.foldl (RepairRule.run before) ⟨text, 0, []⟩ := by
  have later_ := runs_of_lightens lasting_of_blank first removed before same
  rw [later_] at same ⊢
  exact runs_of_lightens spent_of_blank free mended before same

theorem weigh_blanks {text : List Char} (h : ∀ c ∈ text, Text.isBlank c = true) : weigh blanks text = text.length := by
  induction text with
  | nil => rfl
  | cons c text ih =>
      rw [weigh_cons, ih fun d hd => h d (List.mem_cons_of_mem c hd), blanks, if_pos (h c List.mem_cons_self),
        List.length_cons, Nat.cast_succ, add_comm]

/-- Trimming that leaves all the blanks leaves the text. -/
theorem trim_of_blanks {text : List Char} (h : weigh blanks text ≤ weigh blanks (Text.trim text)) : Text.trim text = text := by
  obtain ⟨before, behind, parts, hb, hr⟩ := Text.trim_parts text
  have sum := congrArg (weigh blanks) parts
  rw [weigh_append, weigh_append, weigh_blanks hb, weigh_blanks hr] at sum
  have front : before = [] := List.length_eq_zero_iff.mp (by omega)
  have back : behind = [] := List.length_eq_zero_iff.mp (by omega)
  rw [front, back, List.nil_append, List.append_nil] at parts
  exact parts.symm

/-- Nor has one of those. -/
theorem colons_same {before text : List Char}
    (same : ((repairRules.take 2).foldl (RepairRule.run before) ⟨text, 0, []⟩).text = text) :
    ((repairRules.take 2).foldl (RepairRule.run before) ⟨text, 0, []⟩).count = 0 := by
  obtain ⟨mid, n, sweep⟩ := (relieves_secondColon blanks rfl).sweeps none text
  obtain ⟨out, m, sweep'⟩ := (relieves_oneColon blanks rfl).sweeps none mid
  obtain ⟨first, count⟩ := sweep.edits 0
  obtain ⟨second, count'⟩ := sweep'.edits 0
  have runs : (repairRules.take 2).foldl (RepairRule.run before) ⟨text, 0, []⟩ =
      RepairRule.run before (RepairRule.run before ⟨text, 0, []⟩ ⟨some .pseudoElementConfusion, secondColon.edits⟩)
        ⟨some .pseudoClassConfusion, oneColon.edits⟩ := rfl
  have middle : (RepairRule.run before ⟨text, 0, []⟩ ⟨some .pseudoElementConfusion, secondColon.edits⟩).text = mid := first
  have counted : (RepairRule.run before ⟨text, 0, []⟩ ⟨some .pseudoElementConfusion, secondColon.edits⟩).count = 0 + n :=
    congrArg (0 + ·) count
  rw [runs] at same ⊢
  generalize RepairRule.run before ⟨text, 0, []⟩ ⟨some .pseudoElementConfusion, secondColon.edits⟩ = r at *
  subst middle
  obtain ⟨none, none'⟩ := sweep.colons sweep' (second.symm.trans same)
  rw [count_run, counted, none, Nat.zero_add]
  exact count'.trans none'

/-- A repair that gives a text back has made no edit. -/
theorem repair_same {text : List Char} (same : (repair text).text = text) : (repair text).count = 0 := by
  have split : repairRules = repairRules.take 2 ++ (repairRules.take 3).drop 2 ++ repairRules.drop 3 := rfl
  have first := List.forall_mem_append.mpr
    ⟨lightens_colons lasting rfl, lightens_position 0 lasting_of_blank rfl (by decide)⟩
  have position := lightens_position 1 spent_of_blank rfl (by decide)
  have runs := runs_same (lightens_colons spent rfl) position first lightens_later text text
  rw [← split] at runs
  rw [repair] at same ⊢
  dsimp only at same ⊢
  have done := runs same
  rw [done] at same ⊢
  have kept := weigh_runs text (lightens_colons blanks rfl) ⟨text, 0, []⟩
  dsimp only at kept
  have trimmed : Text.trim ((repairRules.take 2).foldl (RepairRule.run text) ⟨text, 0, []⟩).text = _ := trim_of_blanks (by
    rw [same]
    omega)
  rw [trimmed] at same
  exact colons_same same

/-- A repair of a trimmed selector comes to the same text if and only if it counts no edit, and so does every repair that
follows: no text is read again right after it was rejected. -/
theorem repair_progress {text : List Char} (trimmed : Text.trim text = text) :
    ((repair text).count = 0 ↔ (repair text).text = text) ∧
      ∀ k, (repair (mendedTimes k text)).count ≠ 0 → mendedTimes (k + 1) text ≠ mendedTimes k text := by
  refine ⟨⟨fun none => ?_, repair_same⟩, fun k some same => some (repair_same same)⟩
  rw [repair_of_count none]
  exact trimmed

/-- One colon goes and another comes: the text is as long as before, but another one. -/
theorem repair_progress_swapped : Text.trim "a:before::hover".toList = "a:before::hover".toList ∧
    (repair "a:before::hover".toList).count = 2 ∧ mendedTimes 1 "a:before::hover".toList ≠ "a:before::hover".toList :=
  ⟨by decide +kernel, by decide +kernel, (repair_progress (by decide +kernel)).2 0 (by decide +kernel)⟩

end
end StyleAudit.Selector
