import StyleAudit.Proofs.CompoundWords
import StyleAudit.Proofs.FaithfulChains
import StyleAudit.Proofs.RepairedDamage
/-!
A removable pseudo in the place of a whole compound. Its removal leaves the combinators that stood beside it, and these
are one combinator again only if one of them is white space.
-/
namespace StyleAudit.Selector

open Text (Scan)

/-! A compound of a selector, in the text. -/

/-- The compound of that index starts that many characters into the text of a selector. -/
inductive StartsCompound (text : List Char) : Nat → Nat → Prop
  | first : StartsCompound text 0 (behindSpaces text 0)
  | next {i k m : Nat} {parts : Scan Compound} {sign : Combinator} : StartsCompound text i k →
      compound k (text.drop k) = .ok parts →
      joint (spaces (text.drop (k + parts.size)) != 0) (text.drop (behindSpaces text (k + parts.size))) =
        (.combinator sign, m) →
      StartsCompound text (i + 1) (behindSpaces text (behindSpaces text (k + parts.size) + m))

/-- The combinators on both sides of the compound of that index. -/
def Complex.beside (c : Complex) (i : Nat) : List Combinator :=
  (c.combinators.take i).getLast?.toList ++ (c.combinators.drop i).head?.toList

/-- A word of a selector, with the text in front of it and the text behind it. -/
inductive Cut : Complex → Nat → List Char → List Char → List Char → Prop
  | first {parts : Compound} {links : List (Combinator × Compound)} {word back : List Char} : IsWord word parts →
      Joined links back → Cut ⟨parts, links⟩ 0 [] word back
  | later {first parts : Compound} {sign : Combinator} {before after : List (Combinator × Compound)}
      {head front between word back : List Char} : IsWord head first → Joined before front → Between sign between →
      IsWord word parts → Joined after back →
      Cut ⟨first, before ++ (sign, parts) :: after⟩ (before.length + 1) (head ++ (front ++ between)) word back

namespace Cut

variable {c : Complex} {i : Nat} {front word back : List Char}

theorem isWord (h : Cut c i front word back) : ∃ parts, IsWord word parts := by
  cases h with
  | first isWord _ => exact ⟨_, isWord⟩
  | later _ _ _ isWord _ => exact ⟨_, isWord⟩

theorem joined (h : Cut c i front word back) : ∃ links, Joined links back := by
  cases h with
  | first _ joined => exact ⟨_, joined⟩
  | later _ _ _ _ joined => exact ⟨_, joined⟩

theorem begins (h : Cut c i front word back) : front = [] ∨ Begins extendsCompound front := by
  cases h with
  | first => exact .inl rfl
  | later hhead _ _ _ _ =>
      obtain ⟨d, rest, rfl, extending⟩ := hhead.begins
      exact .inr ⟨d, _, rfl, extending⟩

theorem undamaged (h : Cut c i front word back) : IsUndamaged front := by
  cases h with
  | first => exact isUndamaged_nil
  | later hhead hfront hbetween _ _ =>
      exact hhead.undamaged.append (hfront.joint hbetween) (hfront.joint_startsBehind hbetween)

/-- Behind a word stands the next one, or nothing. -/
theorem next (h : Cut c i front word back) : back = [] ∨ ∃ sign between other rest, back = between ++ (other ++ rest) ∧
    Between sign between ∧ Begins extendsCompound other ∧ Cut c (i + 1) (front ++ (word ++ between)) other rest := by
  cases h with
  | first isWord joined =>
      cases joined with
      | none => exact .inl rfl
      | link between other tail =>
          exact .inr ⟨_, _, _, _, rfl, between, other.begins, .later isWord .none between other tail⟩
  | later hhead hfront hbetween isWord joined =>
      cases joined with
      | none => exact .inl rfl
      | link between other tail =>
          refine .inr ⟨_, _, _, _, rfl, between, other.begins, ?_⟩
          have cut := Cut.later hhead (hfront.append (.link hbetween isWord .none)) between other tail
          simpa using cut

end Cut

/-- The place of a compound, as a cut through the words. -/
theorem StartsCompound.cut {text lead inner trail word back : List Char} {c : Complex} {i k : Nat}
    (h : StartsCompound text i k) (whole : text = lead ++ (inner ++ trail)) (hl : IsBlank lead) (ht : IsBlank trail)
    (start : Cut c 0 [] word back) (same : inner = word ++ back) :
    ∃ front word back, inner = front ++ (word ++ back) ∧ k = lead.length + front.length ∧ Cut c i front word back := by
  subst whole
  induction h with
  | first =>
      obtain ⟨parts, isWord⟩ := start.isWord
      refine ⟨[], word, back, same, ?_, start⟩
      rw [behindSpaces, List.drop_zero, same, List.append_assoc, spaces_append hl (isWord.stopsAtSpace _)]
      simp
  | @next i k m parts sign _ read found ih =>
      obtain ⟨front, word, back, rfl, rfl, cut⟩ := ih
      obtain ⟨kept, isWord⟩ := cut.isWord
      obtain ⟨links, joined⟩ := cut.joined
      have nothing : StopsAt extendsCompound (trail ++ []) := ht.stops .nil
      rw [List.append_nil] at nothing
      have behind : (lead ++ (front ++ (word ++ back) ++ trail)).drop (lead.length + front.length) =
          word ++ (back ++ trail) := by
        rw [← List.drop_drop, List.drop_left, List.append_assoc, List.drop_left, List.append_assoc]
      rw [behind, isWord.again _ (joined.stops nothing)] at read
      obtain rfl := Except.ok.inj read
      have tail : (lead ++ (front ++ (word ++ back) ++ trail)).drop (lead.length + front.length + word.length) =
          back ++ trail := by
        rw [← List.drop_drop, behind, List.drop_left]
      dsimp only at found ⊢
      simp only [behindSpaces, ← List.drop_drop, tail] at found ⊢
      rcases cut.next with rfl | ⟨sign', between, other, rest, rfl, hbetween, ⟨c, more, rfl, extending⟩, cut⟩
      · have size : spaces ([] ++ trail) = trail.length := by
          have size : spaces (trail ++ []) = trail.length := spaces_append ht .nil
          rwa [List.append_nil] at size
        rw [size, List.nil_append, List.drop_length] at found
        cases found
      · refine ⟨_, _, rest, ?_, ?_, cut⟩
        · simp
        · obtain ⟨n, m', size, length, before, join, after⟩ := hbetween.read extending (more ++ rest ++ trail)
          have flat : between ++ (c :: more ++ rest) ++ trail = between ++ c :: (more ++ rest ++ trail) := by simp
          rw [flat, before, join] at found
          obtain ⟨-, rfl⟩ := Prod.mk.inj found
          rw [flat, before, List.drop_drop, after]
          simp only [List.length_append]
          omega

/-- What stands around the compound of that index in an accepted text. -/
theorem StartsCompound.around {text : List Char} {c : Complex} {i k : Nat} {parts : Scan Compound}
    (place : StartsCompound text i k) (unquoted : IsUnquoted text) (accepted : selectors 0 text = .ok [c])
    (found : compound k (text.drop k) = .ok parts) : ∃ lead front word back trail, IsBlank lead ∧ IsBlank trail ∧
      Cut c i front word back ∧ text.take k = lead ++ front ∧ text.drop (k + parts.size) = back ++ trail ∧
        front ++ back ⊆ text := by
  obtain ⟨lead, head, tail, trail, rfl, hlead, htrail, hhead, htail⟩ := words_of_selectors unquoted accepted
  obtain ⟨front, word, back, inner, rfl, cut⟩ :=
    place.cut (by rw [List.append_assoc]) hlead htrail (.first hhead htail) rfl
  have whole : lead ++ (head ++ (tail ++ trail)) = (lead ++ front) ++ (word ++ (back ++ trail)) := by
    rw [← List.append_assoc head, inner]
    simp
  rw [whole, ← List.length_append, List.drop_left] at found
  -- the word is all of the compound
  obtain ⟨kept, isWord⟩ := cut.isWord
  obtain ⟨links, joined⟩ := cut.joined
  have nothing : StopsAt extendsCompound (trail ++ []) := htrail.stops .nil
  rw [List.append_nil] at nothing
  rw [isWord.again _ (joined.stops nothing)] at found
  obtain rfl := Except.ok.inj found
  refine ⟨lead, front, word, back, trail, hlead, htrail, cut, ?_, ?_, fun x mem => ?_⟩
  · rw [whole, ← List.length_append, List.take_left]
  · rw [whole, ← List.length_append, ← List.drop_drop, List.drop_left, List.drop_left]
  · rw [whole]
    simp only [List.mem_append] at mem ⊢
    exact mem.elim (fun mem => .inl (.inr mem)) fun mem => .inr (.inr (.inl mem))

/-! What is left. -/

/-- The blanks of a text are all white space of the grammar. -/
def IsSpaced (text : List Char) : Prop := ∀ c ∈ text, Text.isBlank c = true → isSpace c = true

theorem isSpaced_of_all {text : List Char} (h : (text.all fun c => !Text.isBlank c || isSpace c) = true) :
    IsSpaced text := by
  intro c hc blank
  have other := List.all_eq_true.mp h c hc
  rwa [blank, Bool.not_true, Bool.false_or] at other

theorem IsSpaced.mono {text other : List Char} (h : IsSpaced text) (sub : other ⊆ text) : IsSpaced other :=
  fun c hc => h c (sub hc)

theorem IsSpaced.visible {text : List Char} (h : IsSpaced text) {c : Char} (hc : c ∈ text) (visible : isSpace c = false) :
    Text.isBlank c = false := by
  cases blank : Text.isBlank c with
  | false => rfl
  | true => rw [h c hc blank] at visible; cases visible

theorem joint_sign {sign : Combinator} (other : sign ≠ .descendant) (blank : Bool) (rest : List Char) :
    joint blank (sign.sign.toList ++ rest) = (.combinator sign, sign.sign.toList.length) := by
  cases sign <;> first | exact absurd rfl other | rfl

theorem sign_stops {sign : Combinator} (other : sign ≠ .descendant) (rest : List Char) :
    StopsAt isSpace (sign.sign.toList ++ rest) ∧ StopsAt extendsCompound (sign.sign.toList ++ rest) := by
  cases sign <;> first | exact absurd rfl other | exact ⟨.cons (by decide), .cons (by decide)⟩

/-- A text with no white space at its ends. -/
structure IsFirm (text : List Char) : Prop where
  nonempty : text ≠ []
  first : StopsAt isSpace text
  last : ∀ c, text.getLast? = some c → isSpace c = false

theorem IsFirm.join {front back : List Char} (h : IsFirm front) (h' : IsFirm back) (between : List Char) :
    IsFirm (front ++ (between ++ back)) := by
  refine ⟨List.append_ne_nil_of_left_ne_nil h.nonempty _, fun c hc => ?_, fun c hc => ?_⟩
  · rw [List.head?_append_of_ne_nil _ h.nonempty] at hc
    exact h.first c hc
  · rw [List.getLast?_append_of_ne_nil _ (List.append_ne_nil_of_right_ne_nil _ h'.nonempty),
      List.getLast?_append_of_ne_nil _ h'.nonempty] at hc
    exact h'.last c hc

theorem IsWord.isFirm {word back : List Char} {parts : Compound} {links : List (Combinator × Compound)}
    (h : IsWord word parts) (hb : Joined links back) : IsFirm (word ++ back) := by
  refine ⟨?_, h.stopsAtSpace back, fun c hc => ?_⟩
  · obtain ⟨c, more, rfl, -⟩ := h.begins
    exact List.cons_ne_nil _ _
  · rw [List.getLast?_append] at hc
    rcases Option.or_eq_some_iff.mp hc with last | ⟨-, last⟩
    · exact hb.ends c last
    · exact h.ends c last

theorem isFirm_sign {sign : Combinator} (other : sign ≠ .descendant) : IsFirm sign.sign.toList := by
  have last : ∀ sign : Combinator, sign ≠ .descendant → ∃ c, sign.sign.toList.getLast? = some c ∧ isSpace c = false := by
    intro sign other
    cases sign <;> first | exact absurd rfl other | exact ⟨_, rfl, by decide⟩
  obtain ⟨c, same, visible⟩ := last sign other
  refine ⟨fun none => ?_, ?_, fun d hd => ?_⟩
  · rw [none] at same
    cases same
  · have stops := (sign_stops other []).1
    rwa [List.append_nil] at stops
  · obtain rfl := Option.some.inj (same.symm.trans hd)
    exact visible

theorem IsFirm.trim_self {text : List Char} (h : IsFirm text) (spaced : IsSpaced text) : Text.trim text = text := by
  apply Text.trim_eq_self
  · intro c hc
    exact spaced.visible (List.mem_of_mem_head? hc) (h.first c hc)
  · intro c hc
    exact spaced.visible (List.mem_of_getLast? hc) (h.last c hc)

/-- Trimming takes the white space off a text. -/
theorem IsFirm.trim {before text behind : List Char} (h : IsFirm text) (hb : IsBlank before) (hr : IsBlank behind)
    (spaced : IsSpaced text) : Text.trim (before ++ (text ++ behind)) = text := by
  apply Text.trim_append
  · exact fun c hc => isBlank_of_isSpace (hb c hc)
  · exact fun c hc => isBlank_of_isSpace (hr c hc)
  · exact h.trim_self spaced

theorem IsFirm.trim_front {before text : List Char} (h : IsFirm text) (hb : IsBlank before) (spaced : IsSpaced text) :
    Text.trim (before ++ text) = text := by
  have trimmed := h.trim hb .nil spaced
  rwa [List.append_nil] at trimmed

theorem IsFirm.trim_back {text behind : List Char} (h : IsFirm text) (hr : IsBlank behind) (spaced : IsSpaced text) :
    Text.trim (text ++ behind) = text := h.trim .nil hr spaced

/-- What a text is read as that was left of a selector without its compound of that index: a selector of the other
compounds, if one of the combinators beside it was white space. Else it is no selector, and not to be repaired. -/
inductive IsLeft (c : Complex) (i : Nat) (text : List Char) : Prop
  | whole (other : Complex) : .descendant ∈ c.beside i → selectors 0 text = .ok [other] →
      other.compounds = c.compounds.eraseIdx i → other.combinators ⊆ c.combinators → IsLeft c i text
  | broken (r : Rejection) : .descendant ∉ c.beside i → selectors 0 text = .error r → text ≠ [] → IsUndamaged text →
      IsLeft c i text

/-- No compound is read where none begins. -/
theorem compound_unread {text : List Char} (h : StopsAt extendsCompound text) (pos : Nat) :
    ∃ r, compound pos text = .error r := by
  have star : text.head? ≠ some '*' := fun hc => absurd (h _ hc) (by decide)
  have type : typeSelector pos text = .ok ⟨[], 0⟩ := by
    rw [typeSelector, if_neg star, startsIdent_of_stops h.simple.name, if_neg Bool.false_ne_true]
  have rest := simples_stops h (pos + 0)
  rw [compound.eq_def, type]
  dsimp only
  rw [List.drop_zero, rest]
  dsimp only
  rw [if_pos (List.append_nil _)]
  cases text <;> exact ⟨_, rfl⟩

/-- A sign that no compound follows. -/
theorem links_dangling {sign : Combinator} {before after rest : List Char} (other : sign ≠ .descendant)
    (hb : IsBlank before) (ha : IsBlank after) (space : StopsAt isSpace rest) (stops : StopsAt extendsCompound rest) (pos : Nat) :
    ∃ r, links pos (before ++ (sign.sign.toList ++ (after ++ rest))) = .error r := by
  have size := spaces_append hb (sign_stops other (after ++ rest)).1
  have tail : (before ++ (sign.sign.toList ++ (after ++ rest))).drop (before.length + sign.sign.toList.length) =
      after ++ rest := by
    rw [← List.drop_drop, List.drop_left, List.drop_left]
  rw [links.eq_def]
  dsimp only
  split
  · next e => rw [size, List.drop_left, joint_sign other] at e; cases e
  · next e => rw [size, List.drop_left, joint_sign other] at e; cases e
  · next e =>
      rw [size, List.drop_left, joint_sign other] at e
      obtain ⟨rfl, rfl⟩ : sign = _ ∧ sign.sign.toList.length = _ := by simpa using e
      simp only [size, tail, spaces_append ha space]
      split
      · exact ⟨_, rfl⟩
      · split
        · exact ⟨_, rfl⟩
        · rw [← List.drop_drop, tail, List.drop_left]
          obtain ⟨r, unread⟩ := compound_unread stops (pos + (before.length + sign.sign.toList.length + after.length))
          rw [unread]
          exact ⟨r, rfl⟩

/-- White space beside a combinator is part of it. -/
theorem Between.merge {sign sign' : Combinator} {between between' : List Char} (h : Between sign between)
    (h' : Between sign' between') (white : .descendant ∈ [sign, sign']) :
    ∃ merged ∈ [sign, sign'], Between merged (between ++ between') := by
  cases h with
  | descendant blank some =>
      cases h' with
      | descendant blank' some' =>
          refine ⟨.descendant, List.mem_cons_self, .descendant ?_ ?_⟩
          · exact List.forall_mem_append.mpr ⟨blank, blank'⟩
          · exact List.append_ne_nil_of_left_ne_nil some _
      | @sign _ before after other hb ha =>
          refine ⟨sign', by simp, ?_⟩
          rw [← List.append_assoc]
          exact .sign other (List.forall_mem_append.mpr ⟨blank, hb⟩) ha
  | @sign _ before after other hb ha =>
      cases h' with
      | descendant blank' some' =>
          refine ⟨sign, by simp, ?_⟩
          rw [List.append_assoc, List.append_assoc]
          exact .sign other hb (List.forall_mem_append.mpr ⟨ha, blank'⟩)
      | sign other' _ _ =>
          simp only [List.mem_cons, List.not_mem_nil, or_false] at white
          rcases white with rfl | rfl
          · exact absurd rfl other
          · exact absurd rfl other'

section
variable {first parts parts' : Compound} {sign sign' : Combinator} {before links : List (Combinator × Compound)}
variable {head front between between' word back : List Char}

/-- Without its first compound a selector begins with what joined the second one. -/
theorem isLeft_first (hbetween : Between sign between) (hword : IsWord word parts) (hback : Joined links back)
    (spaced : IsSpaced (between ++ (word ++ back))) :
    IsLeft ⟨first, (sign, parts) :: links⟩ 0 (Text.trim (between ++ (word ++ back))) := by
  have firm := hword.isFirm hback
  cases hbetween with
  | descendant blank _ =>
      rw [firm.trim_front blank (spaced.mono (List.subset_append_right _ _))]
      exact .whole ⟨parts, links⟩ List.mem_cons_self (selectors_joined hword hback) rfl (List.subset_cons_self _ _)
  | @sign _ b a other hb ha =>
      have firm := (isFirm_sign other).join firm a
      have flat : b ++ (sign.sign.toList ++ a) ++ (word ++ back) = b ++ (sign.sign.toList ++ (a ++ (word ++ back))) := by
        simp
      rw [flat] at spaced ⊢
      rw [firm.trim_front hb (spaced.mono (List.subset_append_right _ _))]
      obtain ⟨space, stops⟩ := sign_stops other (a ++ (word ++ back))
      obtain ⟨r, unread⟩ := compound_unread stops 0
      refine .broken r (by simpa [Complex.beside, Complex.combinators] using other.symm) ?_ firm.nonempty ?_
      · rw [selectors_eq, spaces_none space, List.drop_zero, complex, unread]
        rfl
      · have plain := Between.plain (.sign other .nil ha)
        have whole := (hword.undamaged.append hback.undamaged hback.startsBehind).behind plain
        simpa using whole

theorem beside_later (first parts : Compound) (sign : Combinator) (before after : List (Combinator × Compound)) :
    Complex.beside ⟨first, before ++ (sign, parts) :: after⟩ (before.length + 1) =
      sign :: (after.map Prod.fst).head?.toList := by
  have split : Complex.combinators ⟨first, before ++ (sign, parts) :: after⟩ =
      (before.map Prod.fst ++ [sign]) ++ after.map Prod.fst := by simp [Complex.combinators]
  have length : before.length + 1 = (before.map Prod.fst ++ [sign]).length := by simp
  rw [Complex.beside, split, length, List.take_left, List.drop_left, List.getLast?_concat]
  rfl

theorem compounds_later (first parts : Compound) (sign : Combinator) (before after : List (Combinator × Compound)) :
    (Complex.compounds ⟨first, before ++ (sign, parts) :: after⟩).eraseIdx (before.length + 1) =
      first :: (before.map Prod.snd ++ after.map Prod.snd) := by
  have length : before.length = (before.map Prod.snd).length := by simp
  rw [Complex.compounds, List.eraseIdx_cons_succ, List.map_append, length,
    List.eraseIdx_append_of_length_le (Nat.le_refl _), Nat.sub_self]
  rfl

/-- Without its last compound a selector ends in what joined it to the others. -/
theorem isLeft_last (hhead : IsWord head first) (hfront : Joined before front) (hbetween : Between sign between)
    (spaced : IsSpaced (head ++ (front ++ between))) :
    IsLeft ⟨first, before ++ [(sign, parts)]⟩ (before.length + 1) (Text.trim (head ++ (front ++ between))) := by
  have firm := hhead.isFirm hfront
  have beside := beside_later first parts sign before []
  cases hbetween with
  | descendant blank _ =>
      rw [← List.append_assoc] at spaced ⊢
      rw [firm.trim_back blank (spaced.mono (List.subset_append_left _ _))]
      refine .whole ⟨first, before⟩ (by rw [beside]; exact List.mem_cons_self) (selectors_joined hhead hfront) ?_ ?_
      · rw [compounds_later, List.map_nil, List.append_nil]
        rfl
      · rw [Complex.combinators, Complex.combinators, List.map_append]
        exact List.subset_append_left _ _
  | @sign _ b a other hb ha =>
      have firm := firm.join (isFirm_sign other) b
      have flat : head ++ (front ++ (b ++ (sign.sign.toList ++ a))) = ((head ++ front) ++ (b ++ sign.sign.toList)) ++ a := by
        simp
      rw [flat] at spaced ⊢
      rw [firm.trim_back ha (spaced.mono (List.subset_append_left _ _))]
      have joint : Between sign (b ++ (sign.sign.toList ++ [])) := .sign other hb .nil
      have broken : ∀ pos, ∃ r, Selector.links pos (b ++ (sign.sign.toList ++ ([] ++ []))) = .error r :=
        links_dangling other hb .nil .nil .nil
      have ends := joint.stops []
      rw [List.append_nil] at joint
      simp only [List.append_nil] at broken ends
      obtain ⟨r, rejected⟩ := selectors_broken hhead hfront ends broken
      rw [← List.append_assoc] at rejected
      refine .broken r ?_ rejected firm.nonempty ?_
      · rw [beside]
        simpa using other.symm
      · rw [List.append_assoc]
        exact hhead.undamaged.append (hfront.joint joint) (hfront.joint_startsBehind joint)

/-- Without a compound between two others, these are joined by the combinators that were on both sides of it. -/
theorem isLeft_inner (hhead : IsWord head first) (hfront : Joined before front) (hbetween : Between sign between)
    (hbetween' : Between sign' between') (hword : IsWord word parts') (hback : Joined links back)
    (spaced : IsSpaced (head ++ (front ++ between) ++ (between' ++ (word ++ back)))) :
    IsLeft ⟨first, before ++ (sign, parts) :: (sign', parts') :: links⟩ (before.length + 1)
      (Text.trim (head ++ (front ++ between) ++ (between' ++ (word ++ back)))) := by
  have firm := (hhead.isFirm hfront).join (hword.isFirm hback) (between ++ between')
  have flat : head ++ (front ++ between) ++ (between' ++ (word ++ back)) =
      head ++ front ++ (between ++ between' ++ (word ++ back)) := by simp
  rw [flat] at spaced ⊢
  rw [firm.trim_self spaced]
  have beside := beside_later first parts sign before ((sign', parts') :: links)
  rw [List.map_cons, List.head?_cons, Option.toList_some] at beside
  by_cases white : .descendant ∈ [sign, sign']
  · obtain ⟨merged, mem, joint⟩ := hbetween.merge hbetween' white
    have joined := hfront.append (.link joint hword hback)
    rw [List.append_assoc]
    refine .whole ⟨first, before ++ (merged, parts') :: links⟩ (by rwa [beside]) (selectors_joined hhead joined) ?_ ?_
    · rw [compounds_later]
      simp [Complex.compounds]
    · intro other found
      simp only [Complex.combinators, List.map_append, List.map_cons, List.mem_append, List.mem_cons] at found ⊢
      simp only [List.mem_cons, List.not_mem_nil, or_false] at mem
      rcases found with found | rfl | found
      · exact .inl found
      · exact .inr (mem.imp id .inl)
      · exact .inr (.inr (.inr found))
  · have stops : StopsAt extendsCompound (between ++ between' ++ (word ++ back)) := by
      rw [List.append_assoc]
      exact hbetween.stops _
    have broken : ∀ pos, ∃ r, Selector.links pos (between ++ between' ++ (word ++ back)) = .error r := by
      cases hbetween with
      | descendant _ _ => exact absurd List.mem_cons_self white
      | @sign _ b a other hb ha =>
          cases hbetween' with
          | descendant _ _ => exact absurd (by simp) white
          | @sign _ b' a' other' hb' ha' =>
              intro pos
              obtain ⟨space, ends⟩ := sign_stops other' (a' ++ (word ++ back))
              have dangling := links_dangling other hb (List.forall_mem_append.mpr ⟨ha, hb'⟩) space ends pos
              simpa using dangling
    obtain ⟨r, rejected⟩ := selectors_broken hhead hfront stops broken
    have tail := ((hword.undamaged.append hback.undamaged hback.startsBehind).behind hbetween'.plain).behind hbetween.plain
    rw [← List.append_assoc] at tail
    rw [← List.append_assoc] at rejected
    refine .broken r (by rwa [beside]) rejected firm.nonempty ?_
    rw [List.append_assoc]
    exact hhead.undamaged.append (hfront.undamaged.append tail stops.startsBehind) (hfront.stops stops).startsBehind

end

/-- What is left of a selector of several compounds without one of them. -/
theorem Cut.isLeft {c : Complex} {i : Nat} {front word back : List Char} (h : Cut c i front word back)
    (several : c.links ≠ []) (spaced : IsSpaced (front ++ back)) : IsLeft c i (Text.trim (front ++ back)) := by
  cases h with
  | first _ joined =>
      cases joined with
      | none => exact absurd rfl several
      | link hbetween hword hback =>
          rw [List.nil_append] at spaced ⊢
          exact isLeft_first hbetween hword hback spaced
  | later hhead hfront hbetween _ joined =>
      cases joined with
      | none =>
          rw [List.append_nil] at spaced ⊢
          exact isLeft_last hhead hfront hbetween spaced
      | link hbetween' hword hback => exact isLeft_inner hhead hfront hbetween hbetween' hword hback spaced

/-! The repair. -/

theorem Surrounds.repair_removed {front back : List Item} {own : Colons} {word : List Char} {argument : Option (List Char)}
    {kind : Option RepairKind} (h : Surrounds front back word argument) (hp : IsRemovable own word argument kind) :
    Selector.repair (surrounded front back own word argument) = ⟨Text.trim (textOf front ++ textOf back), 1,
      kind.toList.map fun kind => (kind, ⟨String.ofList (surrounded front back own word argument),
        String.ofList (spelling own word argument), ""⟩)⟩ := by
  cases hp with
  | vendor known letters => exact h.repair_vendor known letters
  | named mem known => exact h.repair_named mem known

/-- A text that is repaired is not accepted. -/
theorem isRejected_of_repair {text : List Char} (hu : IsUnquoted text) (visible : text ≠ [])
    (some : (repair text).count ≠ 0) : ∃ r, IsRejected text r := by
  cases read : selectors 0 text with
  | error r => exact ⟨r, visible, read⟩
  | ok list =>
      obtain ⟨items, rfl, sound, undamaged⟩ := accepted_items hu read
      rw [repair_undamaged sound undamaged] at some
      exact absurd rfl some

/-- An argument that a removable pseudo may have: it is passive, and no escape stands in it. -/
def IsHarmless (argument : Option (List Char)) : Prop := ∀ a, argument = some a → IsPassive a ∧ '\\' ∉ a

theorem isUnquoted_spelling {own : Colons} {word rest : List Char} {argument : Option (List Char)}
    (h : Fits word argument rest) (ha : IsHarmless argument) : IsUnquoted (spelling own word argument) := by
  refine forall_spelling (by decide) (fun c hc => ?_) fun a some c hc => ?_
  · have plain := isPlain_of_isWordChar (h.word c hc)
    rw [isPlain_iff] at plain
    simp only [ne_eq, char_eq_iff]
    change c.toNat ≠ 34 ∧ c.toNat ≠ 39 ∧ c.toNat ≠ 92
    omega
  · obtain ⟨passive, unescaped⟩ := ha a some
    obtain ⟨double, single⟩ := passive.quotes c hc
    exact ⟨double, single, fun slash => unescaped (slash ▸ hc)⟩

/-- The inside of a selector with a removable pseudo in the place of one of its words: it is rejected, and one repair
leaves what stood around the word. -/
theorem Cut.repair {c : Complex} {i : Nat} {front word back name : List Char} {own : Colons}
    {argument : Option (List Char)} {kind : Option RepairKind} (h : Cut c i front word back)
    (unquoted : IsUnquoted (front ++ back)) (spaced : IsSpaced (front ++ back)) (hp : IsRemovable own name argument kind)
    (harmless : IsHarmless argument) :
    Text.trim (front ++ (spelling own name argument ++ back)) = front ++ (spelling own name argument ++ back) ∧
      (∃ r, IsRejected (front ++ (spelling own name argument ++ back)) r) ∧
        Selector.repair (front ++ (spelling own name argument ++ back)) = ⟨Text.trim (front ++ back), 1,
          kind.toList.map fun kind => (kind, ⟨String.ofList (front ++ (spelling own name argument ++ back)),
            String.ofList (spelling own name argument), ""⟩)⟩ := by
  obtain ⟨links, joined⟩ := h.joined
  have fits := hp.fits joined.startsBehind fun a some => (harmless a some).1
  have visible : spelling own name argument ≠ [] := by simp [spelling, fits.nonempty]
  have repaired : Selector.repair (front ++ (spelling own name argument ++ back)) = ⟨Text.trim (front ++ back), 1,
      kind.toList.map fun kind => (kind, ⟨String.ofList (front ++ (spelling own name argument ++ back)),
        String.ofList (spelling own name argument), ""⟩)⟩ := by
    have apart := joined.startsBehind
    obtain ⟨items, rfl, sound, undamaged⟩ := h.undamaged
    obtain ⟨items', rfl, sound', undamaged'⟩ := joined.undamaged
    exact Surrounds.repair_removed
      ⟨sound, sound', undamaged, undamaged', apart, fits, fun a some => (harmless a some).1⟩ hp
  refine ⟨?_, ?_, repaired⟩
  · refine Text.trim_eq_self (fun c hc => ?_) fun c hc => ?_
    · rcases h.begins with rfl | ⟨d, rest, rfl, extending⟩
      · rw [List.nil_append, head?_spelling] at hc
        obtain rfl := Option.some.inj hc
        decide
      · obtain rfl := Option.some.inj hc
        exact spaced.visible List.mem_cons_self (isSpace_of_extendsCompound extending)
    · rw [List.getLast?_append_of_ne_nil _ (List.append_ne_nil_of_left_ne_nil visible _), List.getLast?_append] at hc
      rcases Option.or_eq_some_iff.mp hc with last | ⟨-, last⟩
      · exact spaced.visible (List.mem_append_right _ (List.mem_of_getLast? last)) (joined.ends c last)
      · exact isBlank_spelling fits last
  · refine isRejected_of_repair (fun c hc => ?_) ?_ ?_
    · rw [List.mem_append, List.mem_append] at hc
      rcases hc with hc | hc | hc
      · exact unquoted c (List.mem_append_left _ hc)
      · exact isUnquoted_spelling fits harmless c hc
      · exact unquoted c (List.mem_append_right _ hc)
    · exact List.append_ne_nil_of_right_ne_nil _ (List.append_ne_nil_of_left_ne_nil visible _)
    · rw [repaired]
      exact Nat.one_ne_zero

end StyleAudit.Selector

namespace StyleAudit

open Selector (Simple Compound Combinator Colons StartsCompound IsUnquoted IsSpaced IsRemovable IsHarmless selectors
  spelling)
open Text (Scan)

/-- The uses in compounds, in source order. -/
def usesIn (v : Vocabulary) (compounds : List Compound) : List Use :=
  (compounds.flatten.filterMap Simple.name?).filterMap (nameUse? v)

theorem selectorUses_modeled (v : Vocabulary) {c : Selector.Complex} (h : c.IsModeled) :
    selectorUses v [c] = .ok (usesIn v c.compounds) := by
  obtain ⟨cs, found⟩ := Selector.chains_areOk_iff.mpr (List.forall_mem_singleton.mpr h)
  have names : [c].flatMap Selector.Complex.names = c.compounds.flatten.filterMap Simple.name? := by
    simp [Selector.Complex.names]
  rw [selectorUses_ok found, uses_of_isKept v (Selector.isKept_of_chains found), names]
  rfl

theorem isModeled_of_subset {c other : Selector.Complex} (h : c.IsModeled) (compounds : other.compounds ⊆ c.compounds)
    (combinators : other.combinators ⊆ c.combinators) : other.IsModeled :=
  ⟨fun compound mem => h.simples compound (compounds mem), fun mem => h.combinators (combinators mem)⟩

/-- A text that is one selector is accepted at once. -/
theorem inspect_selector (v : Vocabulary) (line : Nat) {text : List Char} {c : Selector.Complex}
    (unquoted : IsUnquoted text) (spaced : IsSpaced text) (accepted : selectors 0 text = .ok [c]) (modeled : c.IsModeled) :
    inspect v line (String.ofList text) = { findings := .ofUses line (usesIn v c.compounds) } := by
  obtain ⟨lead, head, tail, trail, rfl, hlead, htrail, hhead, htail⟩ := Selector.words_of_selectors unquoted accepted
  have inside : Text.trim (lead ++ (head ++ (tail ++ trail))) = head ++ tail := by
    rw [← List.append_assoc head]
    refine (hhead.isFirm htail).trim hlead htrail (spaced.mono fun x mem => ?_)
    simp only [List.mem_append] at mem ⊢
    exact .inr (mem.imp id .inl)
  rw [inspect, String.toList_ofList, inside]
  exact inspectFrom_accepted (Selector.selectors_joined hhead htail) (selectorUses_modeled v modeled) _

/-- The first round takes the pseudo out. -/
theorem inspect_removed (v : Vocabulary) (line : Nat) {c : Selector.Complex} {i : Nat}
    {lead front there back trail word : List Char} {own : Colons} {argument : Option (List Char)}
    {kind : Option RepairKind} (hlead : Selector.IsBlank lead) (htrail : Selector.IsBlank trail)
    (cut : Selector.Cut c i front there back) (unquoted : IsUnquoted (front ++ back)) (spaced : IsSpaced (front ++ back))
    (removable : IsRemovable own word argument kind) (harmless : IsHarmless argument) {replaced : List Char}
    (same : replaced = lead ++ front ++ (spelling own word argument ++ (back ++ trail))) :
    inspect v line (String.ofList replaced) =
      (inspectFrom v line (String.ofList replaced) 9 (Text.trim (front ++ back))).after
        { repairs := kind.toList.map fun kind =>
            ⟨line, kind, ⟨String.ofList (Text.trim replaced), String.ofList (spelling own word argument), ""⟩⟩ } := by
  obtain ⟨firm, ⟨r, rejected⟩, repaired⟩ := cut.repair unquoted spaced removable harmless
  have trimmed : Text.trim replaced = front ++ (spelling own word argument ++ back) := by
    have outer : replaced = lead ++ ((front ++ (spelling own word argument ++ back)) ++ trail) := by rw [same]; simp
    rw [outer]
    exact Text.trim_append (fun x mem => Selector.isBlank_of_isSpace (hlead x mem))
      (fun x mem => Selector.isBlank_of_isSpace (htrail x mem)) firm
  have some : (Selector.repair (front ++ (spelling own word argument ++ back))).count ≠ 0 := by
    rw [repaired]
    exact Nat.one_ne_zero
  have again : inspectFrom v line (String.ofList replaced) (9 + 1) (front ++ (spelling own word argument ++ back)) = _ :=
    inspectFrom_again rejected some 9
  rw [inspect, String.toList_ofList, trimmed, repairLimit, again, repaired, roundFindings, List.map_map]
  rfl

/-- A removable pseudo in the place of one compound of a selector. If white space joined the compound to one of its
neighbours, the pseudo is taken out and the other compounds are used as before. Otherwise a combinator is left over, and
the selector cannot be mended. -/
theorem inspect_replaced (v : Vocabulary) (line : Nat) {text replaced : List Char} {c : Selector.Complex} {i k : Nat}
    {parts : Scan Compound} {own : Colons} {word : List Char} {argument : Option (List Char)} {kind : Option RepairKind}
    (unquoted : IsUnquoted text) (spaced : IsSpaced text) (accepted : selectors 0 text = .ok [c]) (modeled : c.IsModeled)
    (several : c.links ≠ []) (place : StartsCompound text i k) (found : Selector.compound k (text.drop k) = .ok parts)
    (removable : IsRemovable own word argument kind) (harmless : IsHarmless argument)
    (same : replaced = text.take k ++ (spelling own word argument ++ text.drop (k + parts.size))) :
    ∃ repairs : List Repair,
      repairs = kind.toList.map (fun kind =>
        ⟨line, kind, ⟨String.ofList (Text.trim replaced), String.ofList (spelling own word argument), ""⟩⟩) ∧
      inspect v line (String.ofList text) = { findings := .ofUses line (usesIn v c.compounds) } ∧
      (.descendant ∈ c.beside i → inspect v line (String.ofList replaced) =
        { findings := { repairs := repairs, uses := (usesIn v (c.compounds.eraseIdx i)).map (line, ·) } }) ∧
      (.descendant ∉ c.beside i → ∃ left reason, inspect v line (String.ofList replaced) =
        { findings := { repairs := repairs, failures := [(line, ⟨String.ofList replaced, left, reason⟩)] } }) := by
  obtain ⟨lead, front, there, back, trail, hlead, htrail, cut, before, behind, around⟩ :=
    place.around unquoted accepted found
  rw [before, behind] at same
  have spaced' := spaced.mono around
  have mended := inspect_removed v line hlead htrail cut (unquoted.mono around) spaced' removable harmless same
  refine ⟨_, rfl, inspect_selector v line unquoted spaced accepted modeled, fun white => ?_, fun signs => ?_⟩
  · cases cut.isLeft several spaced' with
    | whole other _ read compounds combinators =>
        have subset : other.compounds ⊆ c.compounds := by
          rw [compounds]
          exact List.eraseIdx_subset
        have uses := selectorUses_modeled v (isModeled_of_subset modeled subset combinators)
        rw [mended, inspectFrom_accepted read uses, compounds]
        simp [Inspection.after, Findings.ofUses, Findings.ext_iff]
    | broken _ signs => exact absurd white signs
  · cases cut.isLeft several spaced' with
    | whole _ white => exact absurd white signs
    | broken r _ read visible undamaged =>
        obtain ⟨items, text, sound, undamaged⟩ := undamaged
        have idle : (Selector.repair (Text.trim (front ++ back))).count = 0 := by
          rw [text, Selector.repair_undamaged sound undamaged]
        have stuck : inspectFrom v line (String.ofList replaced) (8 + 1) (Text.trim (front ++ back)) = _ :=
          inspectFrom_stuck ⟨visible, read⟩ idle 8
        refine ⟨String.ofList (Text.trim (front ++ back)), r.text, ?_⟩
        rw [mended, stuck]
        simp [Inspection.after, giveUp, Findings.failure, Findings.ext_iff]

/-- A pseudo-element in the place of a compound with a sign in front of it and white space behind it. -/
theorem inspect_replaced_placeholder :
    IsUnquoted "a > b c".toList ∧ IsSpaced "a > b c".toList ∧
      selectors 0 "a > b c".toList =
        .ok [⟨[.element "a"], [(.child, [.element "b"]), (.descendant, [.element "c"])]⟩] ∧
      StartsCompound "a > b c".toList 1 4 ∧
      Selector.compound 4 ("a > b c".toList.drop 4) = .ok ⟨[.element "b"], 1⟩ ∧
      IsRemovable .two "placeholder".toList none (some .experimentalPseudoElement) ∧ IsHarmless none ∧
      inspect ⟨[], [], []⟩ 7 "a > ::placeholder c" =
        { findings :=
            { repairs := [⟨7, .experimentalPseudoElement, ⟨"a > ::placeholder c", "::placeholder", ""⟩⟩]
              uses := [(7, .element "a"), (7, .element "c")] } } := by
  have unquoted : IsUnquoted "a > b c".toList := Selector.isUnquoted_of_all (by decide)
  have spaced : IsSpaced "a > b c".toList := Selector.isSpaced_of_all (by decide)
  have read : selectors 0 "a > b c".toList =
      .ok [⟨[.element "a"], [(.child, [.element "b"]), (.descendant, [.element "c"])]⟩] := by cbv
  have modeled : Selector.Complex.IsModeled
      ⟨[.element "a"], [(.child, [.element "b"]), (.descendant, [.element "c"])]⟩ := ⟨by decide, by decide⟩
  have start : StartsCompound "a > b c".toList 0 0 := .first
  have one : Selector.compound 0 "a > b c".toList = .ok ⟨[.element "a"], 1⟩ := by cbv
  have sign : Selector.joint (Selector.spaces " > b c".toList != 0) "> b c".toList = (.combinator .child, 1) := by cbv
  have place : StartsCompound "a > b c".toList 1 4 := .next start one sign
  have found : Selector.compound 4 ("a > b c".toList.drop 4) = .ok ⟨[.element "b"], 1⟩ := by cbv
  have elements : Selector.removals[0] ∈ Selector.removals := List.getElem_mem (by decide)
  have removable : IsRemovable .two "placeholder".toList none (some .experimentalPseudoElement) :=
    .named elements (by decide +kernel)
  have harmless : IsHarmless none := fun _ same => by cases same
  obtain ⟨repairs, rfl, -, white, -⟩ := inspect_replaced ⟨[], [], []⟩ 7 unquoted spaced read modeled (List.cons_ne_nil _ _)
    place found removable harmless rfl
  have mended := white (by decide)
  have written : "a > b c".toList.take 4 ++ (spelling .two "placeholder".toList none ++ "a > b c".toList.drop (4 + 1)) =
      "a > ::placeholder c".toList := by decide +kernel
  rw [written, String.ofList_toList] at mended
  refine ⟨unquoted, spaced, read, place, found, removable, harmless, ?_⟩
  rw [mended]
  decide +kernel

/-- With no white space beside the compound, the sign is left over. -/
theorem inspect_host_child :
    selectors 0 "x > p".toList = .ok [⟨[.element "x"], [(.child, [.element "p"])]⟩] ∧ IsUnquoted "x > p".toList ∧
      StartsCompound "x > p".toList 0 0 ∧ Selector.compound 0 ("x > p".toList.drop 0) = .ok ⟨[.element "x"], 1⟩ ∧
      IsRemovable .one "host".toList none none ∧
      "x > p".toList.take 0 ++ (spelling .one "host".toList none ++ "x > p".toList.drop (0 + 1)) = ":host > p".toList ∧
      inspect ⟨[], [], []⟩ 1 ":host > p" =
        { findings := { failures := [(1, ⟨":host > p", "> p", "expected a selector at position 0"⟩)] } } := by
  have classes : Selector.removals[3] ∈ Selector.removals := List.getElem_mem (by decide)
  have unknown : selectors 0 ":host > p".toList = .error ⟨.unknownPseudoClass "host", 5⟩ := by cbv
  have removed : Selector.repair ":host > p".toList = ⟨"> p".toList, 1, []⟩ := by decide +kernel
  have unread : selectors 0 "> p".toList = .error ⟨.noSelector, 0⟩ := by cbv
  have idle : Selector.repair "> p".toList = ⟨"> p".toList, 0, []⟩ := by decide +kernel
  have again : inspectFrom ⟨[], [], []⟩ 1 ":host > p" (9 + 1) ":host > p".toList = _ :=
    inspectFrom_again ⟨by decide, unknown⟩ (by rw [removed]; decide) 9
  have stuck : inspectFrom ⟨[], [], []⟩ 1 ":host > p" (8 + 1) "> p".toList = _ :=
    inspectFrom_stuck ⟨by decide, unread⟩ (by rw [idle]) 8
  have trimmed : Text.trim ":host > p".toList = ":host > p".toList := by decide
  refine ⟨by cbv, Selector.isUnquoted_of_all (by decide), .first, by cbv, .named classes (by decide +kernel),
    by decide +kernel, ?_⟩
  rw [inspect, trimmed, repairLimit, again, removed, stuck]
  decide

end StyleAudit
