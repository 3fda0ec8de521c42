import StyleAudit.Proofs.InspectionCourse
import StyleAudit.Proofs.MarredRules
import StyleAudit.Vocabulary.Bundled
/-!
Repair of marred selectors. Each round takes quotes off and puts a position back; after two rounds at most the selector
is what it was.
-/
namespace StyleAudit.Selector

/-! One piece mended. -/

section
variable {p : Piece} {pieces front back : List Piece}

theorem markedText_append (front back : List Piece) : markedText (front ++ back) = markedText front ++ markedText back :=
  List.flatMap_append

/-- The item in place of its piece. -/
theorem meant_mend (front : List Piece) (p : Piece) (back : List Piece) :
    (front ++ .item p.meant :: back).map Piece.meant = (front ++ p :: back).map Piece.meant := by
  rw [List.map_append, List.map_append]
  rfl

theorem meantText_mend (front : List Piece) (p : Piece) (back : List Piece) :
    meantText (front ++ .item p.meant :: back) = meantText (front ++ p :: back) := congrArg textOf (meant_mend front p back)

theorem AreMarred.mend (h : AreMarred (front ++ p :: back)) : AreMarred (front ++ .item p.meant :: back) := by
  refine ⟨?_, ?_, fun q mem => ?_⟩
  · rw [meant_mend]
    exact h.sound
  · rw [meant_mend]
    exact h.undamaged
  · rcases List.mem_append.mp mem with mem | mem
    · exact h.marred q (List.mem_append_left _ mem)
    · rcases List.mem_cons.mp mem with rfl | mem
      · trivial
      · exact h.marred q (List.mem_append_right _ (List.mem_cons_of_mem p mem))

theorem AreMarred.behind (h : AreMarred (front ++ back)) : AreMarred back := by
  induction front with
  | nil => exact h
  | cons p front ih => exact ih h.tail

theorem AreMarred.before (h : AreMarred (front ++ back)) : AreMarred front := by
  have sound := h.sound
  have undamaged := h.undamaged
  rw [List.map_append] at sound undamaged
  rw [damageOf_append] at undamaged
  have before : AreSound _ (front.map Piece.meant) := (Row.append.mp sound).1
  exact ⟨before.standsBefore (by simp), (List.append_eq_nil_iff.mp undamaged).1,
    fun q mem => h.marred q (List.mem_append_left _ mem)⟩

/-- Behind each position that was replaced, the selector had no closing parenthesis. -/
def SwapsLast : List Piece → Prop
  | [] => True
  | p :: pieces => (p.isSwapped = true → ')' ∉ meantText pieces) ∧ SwapsLast pieces

theorem SwapsLast.mend (h : SwapsLast (front ++ p :: back)) : SwapsLast (front ++ .item p.meant :: back) := by
  induction front with
  | nil =>
      have later : SwapsLast back := (show SwapsLast (p :: back) from h).2
      exact And.intro (fun swapped => by cases swapped) later
  | cons q front ih =>
      have first : q.isSwapped = true → ')' ∉ meantText (front ++ p :: back) := h.1
      rw [← meantText_mend] at first
      exact ⟨first, ih h.2⟩

theorem swapsLast_of_backs {behind : List Char} (h : ∀ back ∈ backsOf behind pieces, ')' ∉ back) : SwapsLast pieces := by
  induction pieces with
  | nil => trivial
  | cons p pieces ih =>
      rw [backsOf, List.forall_mem_append] at h
      refine ⟨fun swapped => ?_, ih h.2⟩
      rw [if_pos swapped] at h
      exact fun mem => h.1 _ List.mem_cons_self (List.mem_append_left _ mem)

theorem length_backsOf (behind : List Char) (pieces : List Piece) :
    (backsOf behind pieces).length = pieces.countP Piece.isSwapped := by
  induction pieces with
  | nil => rfl
  | cons p pieces ih =>
      rw [backsOf, List.length_append, ih, List.countP_cons]
      cases p.isSwapped <;> simp [Nat.add_comm]

/-- Where the selector had no closing parenthesis, nothing is marred. -/
theorem unmarred_of_open (h : ')' ∉ meantText pieces) :
    (∀ p ∈ pieces, p.isSwapped = false) ∧ pieces.flatMap Piece.quotes = [] ∧ markedText pieces = meantText pieces := by
  induction pieces with
  | nil => exact ⟨by simp, rfl, rfl⟩
  | cons p pieces ih =>
      rw [meantText_cons, List.mem_append, not_or] at h
      obtain ⟨kept, unquoted, same⟩ := ih h.2
      cases p with
      | item i =>
          refine ⟨List.forall_mem_cons.mpr ⟨rfl, kept⟩, unquoted, ?_⟩
          rw [markedText_cons, meantText_cons, same]
          rfl
      | quoted word inner quote =>
          exact absurd (by simp [Piece.meant, Item.text, spelling, argumentText]) h.1
      | swapped word argument =>
          exact absurd (by simp [Piece.meant, Item.text, Atom.text, Site.text, Site.shown, spelling, argumentText]) h.1

theorem unmarred_of_none (quotes : pieces.flatMap Piece.quotes = []) (swaps : pieces.countP Piece.isSwapped = 0) :
    markedText pieces = meantText pieces := by
  have same : ∀ p ∈ pieces, p.text = p.meant.text := by
    intro p mem
    have unquoted := List.flatMap_eq_nil_iff.mp quotes p mem
    have kept := List.countP_eq_zero.mp swaps p mem
    cases p with
    | item i => rfl
    | quoted word inner quote => cases unquoted
    | swapped word argument => exact absurd rfl kept
  rw [markedText, meantText, textOf, List.flatMap_map, List.flatMap_def, List.flatMap_def, List.map_congr_left same]

/-- At most one position was replaced. -/
theorem SwapsLast.split (h : SwapsLast pieces) : (∀ p ∈ pieces, p.isSwapped = false) ∨
    ∃ front word argument back, pieces = front ++ .swapped word argument :: back ∧ (∀ p ∈ front, p.isSwapped = false) ∧
      (∀ p ∈ back, p.isSwapped = false) ∧ ')' ∉ markedText back := by
  induction pieces with
  | nil => exact .inl (by simp)
  | cons p pieces ih =>
      cases swapped : p.isSwapped with
      | false =>
          rcases ih h.2 with kept | ⟨front, word, argument, back, rfl, kept, kept', last⟩
          · exact .inl (List.forall_mem_cons.mpr ⟨swapped, kept⟩)
          · exact .inr ⟨p :: front, word, argument, back, rfl, List.forall_mem_cons.mpr ⟨swapped, kept⟩, kept', last⟩
      | true =>
          cases p with
          | swapped word argument =>
              have last := h.1 rfl
              obtain ⟨kept, -, same⟩ := unmarred_of_open last
              exact .inr ⟨[], word, argument, pieces, rfl, by simp, kept, by rwa [same]⟩
          | _ => cases swapped

theorem countP_of_kept (h : ∀ p ∈ pieces, p.isSwapped = false) : pieces.countP Piece.isSwapped = 0 :=
  List.countP_eq_zero.mpr fun p mem => by rw [h p mem]; exact Bool.false_ne_true

theorem SwapsLast.countP_le (h : SwapsLast pieces) : pieces.countP Piece.isSwapped ≤ 1 := by
  rcases h.split with kept | ⟨front, word, argument, back, rfl, kept, kept', -⟩
  · rw [countP_of_kept kept]
    exact Nat.zero_le 1
  · rw [List.countP_append, List.countP_cons, countP_of_kept kept, countP_of_kept kept']
    exact Nat.le_refl 1

end

/-! The two rules that mend, on pieces. -/

section
variable {pieces front back : List Piece} {word argument : List Char} {inner : List Atom} {quote : Char}

theorem quotedNegation_pieces (h : AreMarred (front ++ .quoted word inner quote :: back))
    (unquoted : front.flatMap Piece.quotes = []) (apart : quote ∉ back.flatMap Piece.quotes) :
    ∃ e : Edit, quotedNegation (markedText (front ++ .quoted word inner quote :: back)) = [e] ∧
      Edit.applyAll (markedText (front ++ .quoted word inner quote :: back)) [e] =
        markedText (front ++ .item (.negation word inner false) :: back) := by
  obtain ⟨stands, -, marred⟩ := h.behind.head
  have before : ∀ c ∈ markedText front, c ≠ '"' ∧ c ≠ '\'' := fun c hc =>
    ⟨quote_absent h.before (.inl rfl) (by simp [unquoted]) c hc,
      quote_absent h.before (.inr rfl) (by simp [unquoted]) c hc⟩
  have last : quote ∉ markedText back := fun mem => quote_absent h.behind.tail marred apart quote mem rfl
  have visible : inner.flatMap Atom.text ≠ [] := by
    obtain ⟨c, mem, -⟩ := visible_atoms stands.2.1
    exact List.ne_nil_of_mem mem
  have edits := quotedNegation_quoted stands.1 marred visible before last
  rw [markedText_append, markedText_cons]
  refine ⟨_, edits, ?_⟩
  rw [Piece.text, applyAll_single, markedText_append, markedText_cons]
  rfl

theorem selectorPosition_pieces (h : AreMarred (front ++ .swapped word argument :: back))
    (kept : ∀ p ∈ front, p.isSwapped = false) (last : ')' ∉ markedText back) :
    ∃ e : Edit, selectorPosition (markedText (front ++ .swapped word argument :: back)) = [e] ∧
      Edit.applyAll (markedText (front ++ .swapped word argument :: back)) [e] =
        markedText (front ++ .item (Piece.swapped word argument).meant :: back) := by
  obtain ⟨-, -, name, reference⟩ := h.behind.head
  have before (part : List Char) (suffix : part <:+ markedText front) (visible : part ≠ []) :
      selectorPosition? (part ++ (spelling .one word (some argument) ++ markedText back)) = none := by
    -- behind each colon in front of the position stands another name
    refine selectorPosition?_none fun rest same => position_named ?_
    obtain ⟨c, part, rfl⟩ := List.exists_cons_of_ne_nil visible
    rw [List.cons_append] at same
    obtain ⟨rfl, rfl⟩ := List.cons.inj same
    rcases colonsNamed_pieces h.before kept part suffix with colon | ⟨word', argument', behind, found⟩
    · exact .inl (by rw [List.head?_append, colon]; rfl)
    · exact .inr ⟨word', argument', _, found.append (startsBehind_spelling .one word (some argument) (markedText back))⟩
  have edits := selectorPosition_swapped name reference before last
  rw [markedText_append, markedText_cons]
  refine ⟨_, edits, ?_⟩
  rw [Piece.text, applyAll_single, markedText_append, markedText_cons]
  rfl

/-! One round. -/

/-- What rules leave of pieces, and what they record. -/
structure Leaves (r : Repairing) (pieces : List Piece) (kinds : List RepairKind) : Prop where
  text : r.text = markedText pieces
  count : r.count = kinds.length
  recorded : r.recorded.map Prod.fst = kinds

theorem Leaves.run {r : Repairing} {kinds : List RepairKind} (hr : Leaves r pieces kinds) (selector : List Char)
    {kind : RepairKind} {edits : List Char → List Edit} {e : Edit} {others : List Piece}
    (found : edits (markedText pieces) = [e]) (same : Edit.applyAll (markedText pieces) [e] = markedText others) :
    Leaves (RepairRule.run selector r ⟨some kind, edits⟩) others (kinds ++ [kind]) := by
  have edits_ : edits r.text = [e] := by rw [hr.text, found]
  refine ⟨?_, ?_, ?_⟩
  · rw [RepairRule.run]
    dsimp only
    rw [edits_, hr.text, same]
  · rw [RepairRule.run]
    dsimp only
    rw [edits_, hr.count, List.length_append]
    rfl
  · rw [RepairRule.run]
    dsimp only
    rw [edits_, List.map_append, hr.recorded]
    rfl

/-- Pieces of the same selector with these quotes and as many positions replaced. -/
structure Mends (pieces others : List Piece) (quotes : List Char) (swaps : Nat) : Prop where
  marred : AreMarred others
  last : SwapsLast others
  meant : meantText others = meantText pieces
  quotes : others.flatMap Piece.quotes = quotes
  swaps : others.countP Piece.isSwapped = swaps

theorem quotes_split {more : List Char} (h : pieces.flatMap Piece.quotes = quote :: more) :
    ∃ front word inner back, pieces = front ++ .quoted word inner quote :: back ∧ front.flatMap Piece.quotes = [] ∧
      back.flatMap Piece.quotes = more := by
  induction pieces with
  | nil => cases h
  | cons p pieces ih =>
      rw [List.flatMap_cons] at h
      cases p with
      | quoted word inner quote =>
          obtain ⟨rfl, rfl⟩ := List.cons.inj h
          exact ⟨[], word, inner, pieces, rfl, rfl, rfl⟩
      | item i =>
          obtain ⟨front, word, inner, back, rfl, none, more⟩ := ih h
          exact ⟨.item i :: front, word, inner, back, rfl, none, more⟩
      | swapped word' argument =>
          obtain ⟨front, word, inner, back, rfl, none, more⟩ := ih h
          exact ⟨.swapped word' argument :: front, word, inner, back, rfl, none, more⟩

/-- The first quotes go. -/
theorem run_quotedNegation (h : AreMarred pieces) (last : SwapsLast pieces) (apart : (pieces.flatMap Piece.quotes).Nodup)
    {r : Repairing} {kinds : List RepairKind} (hr : Leaves r pieces kinds) (selector : List Char) :
    ∃ others, Mends pieces others (pieces.flatMap Piece.quotes).tail (pieces.countP Piece.isSwapped) ∧
      Leaves (RepairRule.run selector r ⟨some .quotedNegation, quotedNegation⟩) others
        (kinds ++ ((pieces.flatMap Piece.quotes).take 1).map fun _ => .quotedNegation) := by
  cases quotes : pieces.flatMap Piece.quotes with
  | nil =>
      have idle : quotedNegation r.text = [] := by
        rw [hr.text]
        exact quotedNegation_idle fun c hc =>
          ⟨quote_absent h (.inl rfl) (by simp [quotes]) c hc, quote_absent h (.inr rfl) (by simp [quotes]) c hc⟩
      rw [run_idle selector idle, List.take_nil, List.map_nil, List.append_nil]
      exact ⟨pieces, ⟨h, last, rfl, quotes, rfl⟩, hr⟩
  | cons quote more =>
      obtain ⟨front, word, inner, back, rfl, none, rfl⟩ := quotes_split quotes
      rw [quotes, List.nodup_cons] at apart
      obtain ⟨e, edits, same⟩ := quotedNegation_pieces h none apart.1
      refine ⟨_, ⟨h.mend, last.mend, meantText_mend _ _ _, ?_, ?_⟩, hr.run selector edits same⟩
      · rw [List.flatMap_append, none]
        rfl
      · rw [List.countP_append, List.countP_append]
        rfl

/-- The position that was replaced comes back. -/
theorem run_selectorPosition (h : AreMarred pieces) (last : SwapsLast pieces)
    {r : Repairing} {kinds : List RepairKind} (hr : Leaves r pieces kinds) (selector : List Char) :
    ∃ others, Mends pieces others (pieces.flatMap Piece.quotes) 0 ∧
      Leaves (RepairRule.run selector r ⟨some .badPosition, selectorPosition⟩) others
        (kinds ++ List.replicate (pieces.countP Piece.isSwapped) .badPosition) := by
  rcases last.split with kept | ⟨front, word, argument, back, rfl, kept, kept', close⟩
  · have idle : selectorPosition r.text = [] := by
      rw [hr.text]
      exact (colonsNamed_pieces h kept).selectorPosition_edits
    rw [run_idle selector idle, countP_of_kept kept, List.replicate_zero, List.append_nil]
    exact ⟨pieces, ⟨h, last, rfl, rfl, countP_of_kept kept⟩, hr⟩
  · obtain ⟨e, edits, same⟩ := selectorPosition_pieces h kept close
    have one : (front ++ .swapped word argument :: back).countP Piece.isSwapped = 1 := by
      rw [List.countP_append, List.countP_cons, countP_of_kept kept, countP_of_kept kept']
      rfl
    rw [one]
    refine ⟨_, ⟨h.mend, last.mend, meantText_mend _ _ _, ?_, ?_⟩, hr.run selector edits same⟩
    · rw [List.flatMap_append, List.flatMap_append]
      rfl
    · rw [List.countP_append, List.countP_cons, countP_of_kept kept, countP_of_kept kept']
      rfl

/-- One round takes the first quotes off, and puts the position back. -/
theorem repair_pieces (h : AreMarred pieces) (last : SwapsLast pieces) (apart : (pieces.flatMap Piece.quotes).Nodup) :
    ∃ others r, Mends pieces others (pieces.flatMap Piece.quotes).tail 0 ∧
      Leaves r others (((pieces.flatMap Piece.quotes).take 1).map (fun _ => .quotedNegation) ++
        List.replicate (pieces.countP Piece.isSwapped) .badPosition) ∧
      repair (markedText pieces) = { r with text := Text.trim r.text } := by
  have start : Leaves ⟨markedText pieces, 0, []⟩ pieces [] := ⟨rfl, rfl, rfl⟩
  obtain ⟨first, ⟨marred, last, meant, quotes, swaps⟩, left⟩ := run_quotedNegation h last apart start (markedText pieces)
  obtain ⟨others, mended, left⟩ := run_selectorPosition marred last left (markedText pieces)
  have kept : ∀ p ∈ others, p.isSwapped = false := fun p mem =>
    Bool.eq_false_iff.mpr (List.countP_eq_zero.mp mended.swaps p mem)
  have front : ∀ rule ∈ repairRules.take 4, rule.edits (markedText pieces) = [] :=
    List.forall_mem_cons.mpr ⟨secondColon_pieces h, List.forall_mem_cons.mpr ⟨oneColon_pieces h,
      List.forall_mem_cons.mpr ⟨zeroPosition_pieces h, List.forall_mem_cons.mpr ⟨zeroWidth_pieces h, by simp⟩⟩⟩⟩
  have back : ∀ rule ∈ repairRules.drop 6, rule.edits (markedText others) = [] := by
    have removed : repairRules.drop 8 = removals.map fun r => ⟨r.kind, (removal r.colons r.names).edits⟩ := rfl
    refine List.forall_mem_cons.mpr ⟨(colonsNamed_pieces mended.marred kept).vendorPseudo_edits,
      List.forall_mem_cons.mpr ⟨emptyNegation_pieces mended.marred, fun rule mem => ?_⟩⟩
    change rule ∈ repairRules.drop 8 at mem
    rw [removed] at mem
    obtain ⟨r, hr, rfl⟩ := List.mem_map.mp mem
    exact removal_pieces mended.marred hr
  have split : repairRules = repairRules.take 4 ++ ([⟨some .quotedNegation, quotedNegation⟩,
      ⟨some .badPosition, selectorPosition⟩] ++ repairRules.drop 6) := rfl
  rw [swaps, List.nil_append] at left
  refine ⟨others, _, ⟨mended.marred, mended.last, mended.meant.trans meant, mended.quotes.trans quotes, mended.swaps⟩, left, ?_⟩
  have untouched := runs_idle (markedText pieces) (r := ⟨markedText pieces, 0, []⟩) front
  have done := runs_idle (markedText pieces) (left.text.symm ▸ back)
  rw [repair, split, List.foldl_append, untouched, List.foldl_append]
  exact congrArg (fun r : Repairing => { r with text := Text.trim r.text }) done

/-! Marred pieces are rejected. -/

theorem unescaped_pieces (h : AreMarred pieces) : '\\' ∉ markedText pieces := by
  intro mem
  refine forall_marked (q := fun c => c ≠ '\\') (fun c visible => ?_) h (fun c hc => ?_) '\\' mem rfl
  · rw [Ne, char_eq_iff]
    exact visible.toNat.2.2.1
  · rcases quotes_marred h c hc with rfl | rfl <;> decide

theorem rejected_quoted (h : AreMarred pieces) (some : pieces.flatMap Piece.quotes ≠ []) :
    ∃ rejection, selectors 0 (markedText pieces) = .error rejection := by
  obtain ⟨quote, more, quotes⟩ := List.exists_cons_of_ne_nil some
  obtain ⟨front, word, inner, back, rfl, none, -⟩ := quotes_split quotes
  obtain ⟨stands, -, marred⟩ := h.behind.head
  refine QuotedAhead.rejected (n := (markedText front).length) ⟨⟨markedText front, word, quote,
    inner.flatMap Atom.text ++ quote :: ')' :: markedText back, ?_, rfl, stands.1, marred, fun c hc => ?_⟩, unescaped_pieces h⟩
  · rw [markedText_append, markedText_cons]
    simp [Piece.text, spelling, Colons.text, argumentText]
  · exact ⟨quote_absent h.before (.inl rfl) (by simp [none]) c hc, quote_absent h.before (.inr rfl) (by simp [none]) c hc⟩

theorem rejected_swapped (h : AreMarred pieces) (last : SwapsLast pieces) (unquoted : pieces.flatMap Piece.quotes = [])
    (some : pieces.countP Piece.isSwapped ≠ 0) : ∃ rejection, selectors 0 (markedText pieces) = .error rejection := by
  cases read : selectors 0 (markedText pieces) with
  | error rejection => exact ⟨rejection, rfl⟩
  | ok list =>
      have plain : IsUnquoted (markedText pieces) := fun c hc =>
        ⟨quote_absent h (.inl rfl) (by simp [unquoted]) c hc, quote_absent h (.inr rfl) (by simp [unquoted]) c hc,
          fun same => unescaped_pieces h (same ▸ hc)⟩
      obtain ⟨items, text, sound, -⟩ := accepted_items plain read
      rcases last.split with kept | ⟨front, word, argument, back, rfl, kept, -, close⟩
      · exact absurd (countP_of_kept kept) some
      · obtain ⟨e, edits, -⟩ := selectorPosition_pieces h kept close
        rw [text, selectorPosition_edits sound] at edits
        cases edits

end
end StyleAudit.Selector

namespace StyleAudit

open Selector

/-! The rounds of an inspection. -/

section
variable {v : Vocabulary} {pieces : List Piece} {list : List Selector.Complex} {uses : List Use}

/-- A round on marred pieces. -/
theorem inspectFrom_marred (v : Vocabulary) (line : Nat) (written : String) (h : AreMarred pieces) (last : SwapsLast pieces)
    (apart : (pieces.flatMap Piece.quotes).Nodup) (trimmed : Text.trim (meantText pieces) = meantText pieces)
    (some : pieces.flatMap Piece.quotes ≠ [] ∨ pieces.countP Piece.isSwapped ≠ 0) :
    ∃ (others : List Piece) (repairs : List Repair), Mends pieces others (pieces.flatMap Piece.quotes).tail 0 ∧
      repairs.map Repair.kind = ((pieces.flatMap Piece.quotes).take 1).map (fun _ => .quotedNegation) ++
        List.replicate (pieces.countP Piece.isSwapped) .badPosition ∧ (∀ r ∈ repairs, r.line = line) ∧
      ∀ rounds, inspectFrom v line written (rounds + 1) (markedText pieces) =
        (inspectFrom v line written rounds (markedText others)).after { repairs := repairs } := by
  obtain ⟨others, r, mended, left, same⟩ := repair_pieces h last apart
  have text : (repair (markedText pieces)).text = markedText others := by
    rw [same]
    dsimp only
    rw [left.text]
    exact trim_marked (by rw [mended.meant, trimmed])
  have count : (repair (markedText pieces)).count ≠ 0 := by
    rw [same]
    dsimp only
    rw [left.count, List.length_append, List.length_map, List.length_replicate, List.length_take]
    rcases some with quotes | swaps
    · have := List.length_pos_iff.mpr quotes
      omega
    · omega
  have rejected : ∃ rejection, selectors 0 (markedText pieces) = .error rejection := by
    by_cases quotes : pieces.flatMap Piece.quotes = []
    · exact rejected_swapped h last quotes (some.resolve_left fun other => other quotes)
    · exact rejected_quoted h quotes
  obtain ⟨rejection, error⟩ := rejected
  have visible : markedText pieces ≠ [] := by
    rintro none
    rw [none] at error
    have empty := List.flatMap_eq_nil_iff.mp none
    rcases some with quotes | swaps
    · refine quotes (List.flatMap_eq_nil_iff.mpr fun p mem => absurd (empty p mem) p.text_ends.1)
    · refine swaps (List.countP_eq_zero.mpr fun p mem => absurd (empty p mem) p.text_ends.1)
  refine ⟨others, (roundFindings line (repair (markedText pieces))).repairs, mended, ?_, ?_, fun rounds => ?_⟩
  · rw [same, roundFindings, List.map_map]
    exact left.recorded
  · intro r mem
    obtain ⟨⟨kind, replacement⟩, -, rfl⟩ := List.mem_map.mp mem
    rfl
  · rw [inspectFrom_again ⟨visible, error⟩ count, text]
    rfl

/-- As many rounds do as there are quotes, and at least one if a position was replaced. -/
theorem inspectFrom_pieces (line : Nat) (written : String) (h : AreMarred pieces) (last : SwapsLast pieces)
    (apart : (pieces.flatMap Piece.quotes).Nodup) (trimmed : Text.trim (meantText pieces) = meantText pieces)
    (accepted : selectors 0 (meantText pieces) = .ok list) (modeled : selectorUses v list = .ok uses) {k : Nat}
    (quotes : (pieces.flatMap Piece.quotes).length ≤ k) (swaps : pieces.countP Piece.isSwapped ≤ k) :
    ∃ repairs : List Repair, (repairs.map Repair.kind).Perm
        ((pieces.flatMap Piece.quotes).map (fun _ => .quotedNegation) ++
          List.replicate (pieces.countP Piece.isSwapped) .badPosition) ∧ (∀ r ∈ repairs, r.line = line) ∧
      ∀ rounds, inspectFrom v line written (rounds + k) (markedText pieces) =
        { findings := { repairs := repairs, uses := uses.map (line, ·) } } := by
  induction k generalizing pieces with
  | zero =>
      have unquoted := List.length_eq_zero_iff.mp (Nat.le_zero.mp quotes)
      have kept := Nat.le_zero.mp swaps
      refine ⟨[], by rw [unquoted, kept]; exact .refl _, by simp, fun rounds => ?_⟩
      rw [unmarred_of_none unquoted kept]
      exact inspectFrom_accepted accepted modeled rounds
  | succ k ih =>
      by_cases none : pieces.flatMap Piece.quotes = [] ∧ pieces.countP Piece.isSwapped = 0
      · refine ⟨[], by rw [none.1, none.2]; exact .refl _, by simp, fun rounds => ?_⟩
        rw [unmarred_of_none none.1 none.2]
        exact inspectFrom_accepted accepted modeled _
      · obtain ⟨others, first, mended, kinds, lines, step⟩ :=
          inspectFrom_marred v line written h last apart trimmed (not_and_or.mp none)
        have fewer : (others.flatMap Piece.quotes).length ≤ k := by
          rw [mended.quotes, List.length_tail]
          omega
        obtain ⟨second, kinds', lines', steps⟩ := ih mended.marred mended.last
          (by rw [mended.quotes]; exact apart.sublist (List.tail_sublist _)) (by rw [mended.meant, trimmed])
          (by rw [mended.meant, accepted]) fewer (by rw [mended.swaps]; exact Nat.zero_le k)
        refine ⟨first ++ second, ?_, List.forall_mem_append.mpr ⟨lines, lines'⟩, fun rounds => ?_⟩
        · rw [mended.quotes, mended.swaps, List.replicate_zero, List.append_nil] at kinds'
          have all := List.take_append_drop 1 (pieces.flatMap Piece.quotes)
          rw [List.drop_one] at all
          rw [List.map_append, kinds]
          conv_rhs => rw [← all, List.map_append, List.append_assoc]
          rw [List.append_assoc]
          exact ((List.perm_append_comm).trans (kinds'.append_right _)).append_left _
        · rw [← Nat.add_assoc, step, steps, Inspection.after]
          congr 1

end

/-- Repairs of quoted negations and of bad positions stay inside of their pseudos. A selector without quotes and
backslashes is accepted when the blanks around it are taken off. Each kind of quotes is put around one argument of a
negation at most, and a class or an id stands in the place of positions behind which no parenthesis closes. Then two
rounds at most give the selector back, and what is found differs by one repair for each argument that was marred. -/
theorem inspect_marred (v : Vocabulary) (line : Nat) (found : Findings) {text damaged quotes : List Char}
    {backs : List (List Char)} {list : List Selector.Complex} (hd : Marred text damaged quotes backs)
    (apart : quotes.Nodup) (last : ∀ back ∈ backs, ')' ∉ back) (hu : IsUnquoted text)
    (accepted : selectors 0 (Text.trim text) = .ok list) (modeled : ∀ c ∈ list, c.IsModeled) :
    ∃ (repairs : List Repair) (uses : List (Nat × Use)),
      (inspect v line (String.ofList text)).after found =
          ⟨⟨found.repairs, found.failures, found.uses ++ uses⟩, none⟩ ∧
        (inspect v line (String.ofList damaged)).after found =
          ⟨⟨found.repairs ++ repairs, found.failures, found.uses ++ uses⟩, none⟩ ∧
        inspectFrom v line (String.ofList damaged) 2 (Text.trim damaged) = inspect v line (String.ofList damaged) ∧
        (∀ r ∈ repairs, r.line = line) ∧ (repairs.map Repair.kind).Perm
          (quotes.map (fun _ => .quotedNegation) ++ backs.map fun _ => .badPosition) := by
  obtain ⟨pieces, behind, marred, rfl, rfl, same, meant⟩ := marred_pieces hd last hu accepted
  obtain ⟨uses, modeled⟩ := exists_uses v modeled
  have whole : inspect v line (String.ofList text) = { findings := .ofUses line uses } := by
    rw [inspect, String.toList_ofList]
    exact inspectFrom_accepted accepted modeled repairLimit
  have trimmed := Text.trim_trim text
  rw [meant] at accepted trimmed
  have two : (pieces.flatMap Piece.quotes).length ≤ 2 := by
    have sub : pieces.flatMap Piece.quotes ⊆ ['"', '\''] := fun c hc => by simpa using quotes_marred marred c hc
    exact (apart.subperm sub).length_le
  have later := swapsLast_of_backs last
  obtain ⟨repairs, perm, lines, rounds⟩ := inspectFrom_pieces line (String.ofList damaged) marred later apart trimmed
    accepted modeled two (later.countP_le.trans (by decide))
  have mended : inspect v line (String.ofList damaged) =
      { findings := { repairs := repairs, uses := uses.map (line, ·) } } := by
    rw [inspect, String.toList_ofList, same]
    exact rounds 8
  refine ⟨repairs, uses.map (line, ·), ?_, ?_, ?_, lines, ?_⟩
  · rw [whole, Inspection.after]
    congr 1
    ext1 <;> simp [Findings.ofUses]
  · rw [mended, Inspection.after]
    congr 1
    ext1 <;> simp
  · rw [mended, same]
    exact rounds 0
  · have positions : (backsOf behind pieces).map (fun _ => RepairKind.badPosition) = _ := List.map_const'
    rwa [positions, length_backsOf]

/-- Both kinds of quotes, and a position behind them. -/
theorem inspect_marred_three :
    ∃ (repairs : List Repair) (uses : List (Nat × Use)),
      (inspect ⟨[], [], []⟩ 1 (String.ofList "a:not(.b)>c:not( d):nth-child(0n) i".toList)).after {} =
          ⟨⟨[], [], [] ++ uses⟩, none⟩ ∧
        (inspect ⟨[], [], []⟩ 1 (String.ofList "a:not('.b')>c:not(\" d\"):nth-child(#x) i".toList)).after {} =
          ⟨⟨[] ++ repairs, [], [] ++ uses⟩, none⟩ ∧
        inspectFrom ⟨[], [], []⟩ 1 (String.ofList "a:not('.b')>c:not(\" d\"):nth-child(#x) i".toList) 2
            (Text.trim "a:not('.b')>c:not(\" d\"):nth-child(#x) i".toList) =
          inspect ⟨[], [], []⟩ 1 (String.ofList "a:not('.b')>c:not(\" d\"):nth-child(#x) i".toList) ∧
        (∀ r ∈ repairs, r.line = 1) ∧ (repairs.map Repair.kind).Perm
          (['\'', '"'].map (fun _ => .quotedNegation) ++ [" i".toList].map fun _ => .badPosition) := by
  have accepted : selectors 0 (Text.trim "a:not(.b)>c:not( d):nth-child(0n) i".toList) =
      .ok [⟨[.element "a", .negation (.className "b")],
        [(.child, [.element "c", .negation (.element "d"), .position .nthChild ⟨0, 0⟩]), (.descendant, [.element "i"])]⟩] := by
    cbv
  have reference : IsReference "#x".toList := ⟨'#', ['x'], rfl, .inr rfl, by simp, List.all_eq_true.mp (by decide)⟩
  have position : Marred ":nth-child(0n) i".toList ":nth-child(#x) i".toList [] [" i".toList] :=
    @Marred.swapped "nth-child".toList "#x".toList _ _ _ _ (by decide +kernel) reference (.keep (.keep .done))
  have closed {inner : List Char} (plain : inner.all isPlain = true) : IsClosed inner :=
    Site.isClosed_of_isPlain (List.all_eq_true.mp plain)
  have second : Marred ":not( d):nth-child(0n) i".toList ":not(\" d\"):nth-child(#x) i".toList ['"'] [" i".toList] :=
    @Marred.quoted "not".toList " d".toList _ _ _ '"' _ (by decide +kernel) (closed (by decide)) (.inl rfl) position
  have first : Marred ":not(.b)>c:not( d):nth-child(0n) i".toList ":not('.b')>c:not(\" d\"):nth-child(#x) i".toList
      ['\'', '"'] [" i".toList] :=
    @Marred.quoted "not".toList ".b".toList _ _ _ '\'' _ (by decide +kernel) (closed (by decide)) (.inr rfl)
      (.keep (.keep second))
  refine inspect_marred ⟨[], [], []⟩ 1 {} (.keep first) (by decide) (by decide) ?_ accepted ?_
  · exact isUnquoted_of_all (by decide)
  · exact List.forall_mem_cons.mpr ⟨⟨by decide, by decide⟩, by simp⟩

/-- A repair goes on to the last parenthesis: what stands between the position and that is lost without an error. -/
theorem inspect_marred_swallowed :
    (∃ list, selectors 0 "li:nth-child(0n) a:not(.vcard)".toList = .ok list ∧ ∀ c ∈ list, c.IsModeled) ∧
      IsUnquoted "li:nth-child(0n) a:not(.vcard)".toList ∧
        Marred "li:nth-child(0n) a:not(.vcard)".toList "li:nth-child(.odd) a:not(.vcard)".toList []
          [" a:not(.vcard)".toList] ∧
          (inspect .bundled 1 "li:nth-child(0n) a:not(.vcard)").findings.uses = [(1, .microformat "vcard")] ∧
            (inspect .bundled 1 "li:nth-child(.odd) a:not(.vcard)").findings.uses = [] := by
  have read : selectors 0 "li:nth-child(0n) a:not(.vcard)".toList = .ok
      [⟨[.element "li", .position .nthChild ⟨0, 0⟩], [(.descendant, [.element "a", .negation (.className "vcard")])]⟩] := by
    cbv
  have first : selectors 0 "li:nth-child(.odd) a:not(.vcard)".toList = .error ⟨.malformedPosition ".odd", 13⟩ := by cbv
  have second : selectors 0 "li:nth-child(0n)".toList = .ok [⟨[.element "li", .position .nthChild ⟨0, 0⟩], []⟩] := by cbv
  have back : Marred " a:not(.vcard)".toList " a:not(.vcard)".toList [] [] := by
    iterate 14 apply Marred.keep
    exact .done
  have position : Marred ":nth-child(0n) a:not(.vcard)".toList ":nth-child(.odd) a:not(.vcard)".toList []
      [" a:not(.vcard)".toList] :=
    @Marred.swapped "nth-child".toList ".odd".toList _ _ _ _ (by decide +kernel)
      ⟨'.', ['o', 'd', 'd'], rfl, .inl rfl, by simp, List.all_eq_true.mp (by decide)⟩ back
  refine ⟨⟨_, read, List.forall_mem_cons.mpr ⟨⟨by decide, by decide⟩, by simp⟩⟩, isUnquoted_of_all (by decide),
    .keep (.keep position), ?_, ?_⟩
  · have trimmed : Text.trim "li:nth-child(0n) a:not(.vcard)".toList = "li:nth-child(0n) a:not(.vcard)".toList := by decide
    rw [inspect, trimmed, inspectFrom_accepted read rfl]
    decide +kernel
  · have trimmed : Text.trim "li:nth-child(.odd) a:not(.vcard)".toList = "li:nth-child(.odd) a:not(.vcard)".toList := by
      decide
    have mended : (repair "li:nth-child(.odd) a:not(.vcard)".toList).count = 1 ∧
        (repair "li:nth-child(.odd) a:not(.vcard)".toList).text = "li:nth-child(0n)".toList := by
      decide +kernel
    rw [inspect, trimmed, repairLimit, inspectFrom_again ⟨by simp, first⟩ (by rw [mended.1]; decide), mended.2,
      inspectFrom_accepted second rfl]
    decide +kernel

end StyleAudit
