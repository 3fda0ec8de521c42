import StyleAudit.Proofs.SelectorWords
import StyleAudit.Selector.Repair
/-!
Sweeps: what a local rule makes of a text on its way from left to right, without offsets. A rule for pseudo names acts
only behind colons, and there only on a whole word.
-/
namespace StyleAudit.Selector

/-- A rule goes through a text and leaves another, with that many edits. -/
inductive Sweeps (rule : LocalRule) : Option Char → List Char → List Char → Nat → Prop
  | done {previous : Option Char} : Sweeps rule previous [] [] 0
  | keep {previous : Option Char} {c : Char} {rest out : List Char} {n : Nat} : rule previous (c :: rest) = none →
      Sweeps rule (some c) rest out n → Sweeps rule previous (c :: rest) (c :: out) n
  | edit {previous : Option Char} {front rest replacement out : List Char} {n : Nat} : front ≠ [] →
      rule previous (front ++ rest) = some (front.length, replacement) → Sweeps rule front.getLast? rest out n →
      Sweeps rule previous (front ++ rest) (replacement ++ out) (n + 1)

/-- The characters of a range are passed over. -/
theorem editsFrom_skip (rule : LocalRule) (front rest : List Char) (position : Nat) (previous : Option Char) :
    rule.editsFrom front.length position previous (front ++ rest) =
      rule.editsFrom 0 (position + front.length) (front.getLast?.or previous) rest := by
  induction front generalizing position previous with
  | nil => simp
  | cons c front ih =>
      rw [List.length_cons, List.cons_append, LocalRule.editsFrom, ih, List.getLast?_cons]
      cases front.getLast? <;> simp [Nat.add_assoc, Nat.add_comm 1]

/-- No edit starts before the place where the rule does. -/
theorem editsFrom_start (rule : LocalRule) (skip position : Nat) (previous : Option Char) (text : List Char) :
    ∀ e ∈ rule.editsFrom skip position previous text, position ≤ e.start := by
  induction text generalizing skip position previous with
  | nil => simp [LocalRule.editsFrom]
  | cons c rest ih =>
      have later (skip : Nat) : ∀ e ∈ rule.editsFrom skip (position + 1) (some c) rest, position ≤ e.start :=
        fun e he => Nat.le_of_succ_le (ih skip (position + 1) (some c) e he)
      cases skip with
      | succ more => exact later more
      | zero =>
          rw [LocalRule.editsFrom]
          cases rule previous (c :: rest) with
          | none => exact later 0
          | some found => exact List.forall_mem_cons.mpr ⟨Nat.le_refl _, later _⟩

theorem applyFrom_keep {position : Nat} {edits : List Edit} (h : ∀ e ∈ edits, position + 1 ≤ e.start) (c : Char)
    (rest : List Char) :
    Edit.applyFrom position (c :: rest) edits = c :: Edit.applyFrom (position + 1) rest edits := by
  cases edits with
  | nil => rfl
  | cons e edits =>
      have start := h e (by simp)
      obtain ⟨n, before⟩ : ∃ n, e.start - position = n + 1 := ⟨e.start - position - 1, by omega⟩
      obtain ⟨m, size⟩ : ∃ m, e.stop - position = m + 1 := ⟨e.stop - position - 1, by simp only [Edit.stop]; omega⟩
      have before' : e.start - (position + 1) = n := by omega
      have size' : e.stop - (position + 1) = m := by omega
      rw [Edit.applyFrom, Edit.applyFrom, before, size, before', size']
      simp

/-- The edits of a rule are those of its sweep. -/
theorem Sweeps.edits {rule : LocalRule} {previous : Option Char} {text out : List Char} {n : Nat}
    (h : Sweeps rule previous text out n) (position : Nat) :
    Edit.applyFrom position text (rule.editsFrom 0 position previous text) = out ∧
      (rule.editsFrom 0 position previous text).length = n := by
  induction h generalizing position with
  | done => exact ⟨rfl, rfl⟩
  | @keep previous c rest out n none _ ih =>
      obtain ⟨text, count⟩ := ih (position + 1)
      have start := editsFrom_start rule 0 (position + 1) (some c) rest
      have edits : rule.editsFrom 0 position previous (c :: rest) = rule.editsFrom 0 (position + 1) (some c) rest := by
        rw [LocalRule.editsFrom, none]
      rw [edits, applyFrom_keep start, text]
      exact ⟨rfl, count⟩
  | @edit previous front rest replacement out n some found _ ih =>
      obtain ⟨text, count⟩ := ih (position + front.length)
      have edits : rule.editsFrom 0 position previous (front ++ rest) = ⟨position, front.length, replacement⟩ ::
          rule.editsFrom 0 (position + front.length) front.getLast? rest := by
        cases front with
        | nil => exact absurd rfl some
        | cons c front =>
            -- the rest of the range is skipped, and its last character stands in front of what follows
            have skip := editsFrom_skip rule front rest (position + 1) (.some c)
            rw [List.cons_append] at found
            rw [List.cons_append, LocalRule.editsFrom, found]
            simp only [List.length_cons, Nat.add_sub_cancel]
            rw [skip, List.getLast?_cons, Nat.add_right_comm, Nat.add_assoc position]
            cases front.getLast? <;> rfl
      rw [edits, Edit.applyFrom]
      simp only [Nat.sub_self, List.take_zero, List.nil_append, Edit.stop, Nat.add_sub_cancel_left, List.drop_left, text,
        List.length_cons, count, and_self]

/-! Arguments in parentheses. -/

/-- A text that the search for a closing parenthesis passes over, whatever stands behind it. -/
def IsClosed (text : List Char) : Prop := ∀ depth rest,
  closingSize depth (text ++ rest) = (closingSize depth rest).map (text.length + ·)

theorem IsClosed.append {before behind : List Char} (hb : IsClosed before) (hr : IsClosed behind) :
    IsClosed (before ++ behind) := by
  intro depth rest
  rw [List.append_assoc, hb, hr, Option.map_map, List.length_append]
  congr 1
  funext n
  simp [Nat.add_assoc]

theorem IsClosed.plain {text : List Char} (h : ∀ c ∈ text, c ≠ '(' ∧ c ≠ ')') : IsClosed text := by
  induction text with
  | nil => intro depth rest; simp
  | cons c text ih =>
      intro depth rest
      obtain ⟨opening, closing⟩ := h c (by simp)
      rw [List.cons_append, closingSize.eq_def]
      dsimp only
      rw [if_neg opening, if_neg closing, ih fun d hd => h d (by simp [hd]), Option.map_map, List.length_cons]
      congr 1
      funext n
      simp only [Function.comp_apply]
      omega

theorem IsClosed.parentheses {text : List Char} (h : IsClosed text) : IsClosed ('(' :: (text ++ [')'])) := by
  intro depth rest
  have closing : closingSize (depth + 1) (')' :: rest) = (closingSize depth rest).map (1 + ·) := by
    rw [closingSize.eq_def]
    simp
  rw [List.cons_append, List.append_assoc, List.singleton_append, closingSize.eq_def]
  simp only [if_true, h (depth + 1), closing, Option.map_map]
  congr 1
  funext n
  simp
  omega

theorem argument?_closed {text : List Char} (h : IsClosed text) (rest : List Char) :
    argument? ('(' :: (text ++ ')' :: rest)) = some (text.length + 2) := by
  rw [argument?, h, closingSize.eq_def]
  simp
  omega

/-! Names found as whole words. -/

/-- A word in lower case. -/
def lower (word : List Char) : String := (String.ofList word).toLower

/-- Names of whole words in lower case. -/
def IsTable (names : List PseudoName) : Prop :=
  ∀ n ∈ names, ∀ c ∈ n.name.toList, isWordChar c = true ∧ c.toLower = c

theorem isTable_of_all {names : List PseudoName}
    (h : (names.all fun n => n.name.toList.all fun c => isWordChar c && c.toLower == c) = true) : IsTable names := by
  intro n hn c hc
  have checked := List.all_eq_true.mp (List.all_eq_true.mp h n hn) c hc
  rwa [Bool.and_eq_true, beq_iff_eq] at checked

theorem isWordChar_of_toLower {c : Char} (h : isWordChar c.toLower = true) : isWordChar c = true := by
  by_cases upper : 65 ≤ c.toNat ∧ c.toNat ≤ 90
  · rw [isWordChar_iff]
    omega
  · rwa [toLower_eq_self upper] at h

theorem toList_lower (word : List Char) : (lower word).toList = word.map Char.toLower := by
  rw [lower, String.toLower, String.toList_map, String.toList_ofList]

/-- A name that begins a text without being the word there is a shorter one. -/
theorem beginsWith_word {name : String} {word rest : List Char}
    (hn : ∀ c ∈ name.toList, isWordChar c = true ∧ c.toLower = c) (hr : StopsAt isWordChar rest)
    (h : beginsWith name.toList (word ++ rest) = true) (other : name ≠ lower word) : name.length < word.length := by
  have same : name.toList.map Char.toLower = name.toList := by
    have id_ : ∀ c ∈ name.toList, c.toLower = id c := fun c hc => (hn c hc).2
    rw [List.map_congr_left id_, List.map_id]
  rw [beginsWith, same, beq_iff_eq, String.length_toList, List.take_append] at h
  by_contra long
  -- a longer name would hold the character behind the word
  rw [List.take_of_length_le (by omega), List.map_append] at h
  cases taken : rest.take (name.length - word.length) with
  | nil =>
      rw [taken, List.map_nil, List.append_nil] at h
      apply other
      rw [← String.toList_inj, toList_lower, h]
  | cons c more =>
      have first : rest.head? = some c := by
        cases rest with
        | nil => simp at taken
        | cons d rest =>
            cases k : name.length - word.length with
            | zero => rw [k] at taken; cases taken
            | succ m =>
                rw [k, List.take_succ_cons] at taken
                rw [(List.cons.inj taken).1]
                rfl
      have mem : c.toLower ∈ name.toList := by
        rw [← h, taken]
        simp
      have word' := isWordChar_of_toLower (hn _ mem).1
      rw [hr c first] at word'
      cases word'

theorem beginsWith_lower {name : String} {word : List Char} (hn : ∀ c ∈ name.toList, c.toLower = c)
    (same : name = lower word) (rest : List Char) :
    beginsWith name.toList (word ++ rest) = true ∧ (word ++ rest).drop name.length = rest := by
  have length : name.length = word.length := by
    rw [← String.length_toList, same, toList_lower, List.length_map]
  have id_ : ∀ c ∈ name.toList, c.toLower = id c := hn
  refine ⟨?_, by rw [length, List.drop_left]⟩
  rw [beginsWith, String.length_toList, length, List.take_left, List.map_congr_left id_, List.map_id, same, toList_lower,
    beq_self_eq_true]

/-- What a name takes along behind it: an argument, if there is one. -/
def tailSize? (rest : List Char) : Option Nat := if rest.head? = some '(' then argument? rest else some 0

theorem tailSize?_word {c : Char} {rest : List Char} (h : isWordChar c = true) : argument? (c :: rest) = none := by
  unfold argument?
  split
  · next same =>
      obtain ⟨rfl, -⟩ := List.cons.inj same
      cases h
  · rfl

/-- A name is found at the start of a text if it is the word there, in front of an argument or not as it should be. -/
theorem size?_word {n : PseudoName} {word rest : List Char}
    (hn : ∀ c ∈ n.name.toList, isWordChar c = true ∧ c.toLower = c) (hw : ∀ c ∈ word, isWordChar c = true)
    (hr : StopsAt isWordChar rest) :
    n.size? (word ++ rest) =
      if n = ⟨lower word, rest.head? == some '('⟩ then (tailSize? rest).map (word.length + ·) else none := by
  obtain ⟨name, functional⟩ := n
  simp only [PseudoName.size?, PseudoName.mk.injEq]
  by_cases same : name = lower word
  · obtain ⟨begins, behind⟩ := beginsWith_lower (fun c hc => (hn c hc).2) same rest
    have length : name.length = word.length := by rw [← String.length_toList, same, toList_lower, List.length_map]
    rw [if_pos begins, behind, length]
    cases rest with
    | nil => cases functional <;> simp [same, tailSize?, argument?]
    | cons c rest =>
        have stop := hr c rfl
        by_cases opening : c = '('
        · cases functional <;> simp [same, tailSize?, opening]
        · cases functional <;> simp [same, tailSize?, opening, stop, argument?]
  · have absent : ¬ (name = lower word ∧ functional = (rest.head? == some '(')) := fun both => same both.1
    rw [if_neg absent]
    split
    · next begins =>
        have short : name.length < word.length := beginsWith_word hn hr begins same
        obtain ⟨c, more, behind⟩ : ∃ c more, word.drop name.length = c :: more :=
          List.exists_cons_of_ne_nil fun none => by
            have := congrArg List.length none
            simp only [List.length_drop, List.length_nil] at this
            omega
        have word' : isWordChar c = true := hw c (List.mem_of_mem_drop (behind ▸ List.mem_cons_self))
        rw [List.drop_append_of_le_length (by omega), behind, List.cons_append]
        simp [word', tailSize?_word word']
    · rfl

/-- Of a table, only the name that is the word can be found at the start of a text. -/
theorem find?_word {names : List PseudoName} {word rest : List Char} (hn : IsTable names)
    (hw : ∀ c ∈ word, isWordChar c = true) (hr : StopsAt isWordChar rest) :
    PseudoName.find? names (word ++ rest) =
      if ⟨lower word, rest.head? == some '('⟩ ∈ names then (tailSize? rest).map (word.length + ·) else none := by
  induction names with
  | nil => rfl
  | cons n names ih =>
      have others := ih fun m hm => hn m (List.mem_cons_of_mem n hm)
      rw [PseudoName.find?] at others ⊢
      rw [List.findSome?_cons, size?_word (hn n List.mem_cons_self) hw hr, others]
      by_cases this : n = ⟨lower word, rest.head? == some '('⟩
      · have mem : ⟨lower word, rest.head? == some '('⟩ ∈ n :: names := this ▸ List.mem_cons_self
        rw [if_pos this, if_pos mem]
        cases tailSize? rest <;> simp
      · simp only [if_neg this, List.mem_cons, Ne.symm this, false_or]

/-! Rules for pseudo names, on pseudos as they are written. -/

def Colons.text : Colons → List Char
  | .one => [':']
  | .two => [':', ':']

/-- An argument with its parentheses. -/
def argumentText : Option (List Char) → List Char
  | none => []
  | some argument => '(' :: (argument ++ [')'])

/-- A pseudo with its colons and its argument. -/
def spelling (colons : Colons) (word : List Char) (argument : Option (List Char)) : List Char :=
  colons.text ++ (word ++ argumentText argument)

/-- A word with an argument that closes, or with none behind it, in front of the rest. -/
structure Fits (word : List Char) (argument : Option (List Char)) (rest : List Char) : Prop where
  nonempty : word ≠ []
  word : ∀ c ∈ word, isWordChar c = true
  closed : ∀ text, argument = .some text → IsClosed text
  ends : argument = none → StopsAt (fun c => isWordChar c || c == '(') rest

section
variable {colons own : Colons} {names : List PseudoName} {replace : List Char → Option (List Char)}
variable {word rest out : List Char} {argument : Option (List Char)} {n : Nat}

theorem Fits.no_colon (h : Fits word argument rest) : ∀ c ∈ word, c ≠ ':' := by
  rintro c hc rfl
  exact absurd (h.word ':' hc) (by decide)

theorem Fits.head (h : Fits word argument rest) : ∃ c more, word = c :: more ∧ c ≠ ':' := by
  obtain ⟨c, more, rfl⟩ := List.exists_cons_of_ne_nil h.nonempty
  exact ⟨c, more, rfl, h.no_colon c List.mem_cons_self⟩

theorem Fits.tail (h : Fits word argument rest) :
    StopsAt isWordChar (argumentText argument ++ rest) ∧
      tailSize? (argumentText argument ++ rest) = some (argumentText argument).length ∧
      ((argumentText argument ++ rest).head? == some '(') = argument.isSome := by
  cases argument with
  | none =>
      have stop := h.ends rfl
      have opening : rest.head? ≠ some '(' := fun first => by simpa using stop '(' first
      refine ⟨stop.mono fun c hc => by simp [hc], ?_, ?_⟩
      · simp [argumentText, tailSize?, opening]
      · simp [argumentText, opening]
  | some text =>
      refine ⟨.cons (by decide), ?_, by simp [argumentText]⟩
      rw [argumentText, tailSize?, List.cons_append, List.append_assoc, List.singleton_append, List.head?_cons, if_pos rfl,
        argument?_closed (h.closed text rfl)]
      simp

/-- What a rule makes of a pseudo. -/
def actsOn (colons : Colons) (names : List PseudoName) (replace : List Char → Option (List Char)) (own : Colons)
    (word : List Char) (argument : Option (List Char)) : Option (List Char) :=
  if own = colons ∧ ⟨lower word, argument.isSome⟩ ∈ names then replace (spelling own word argument) else none

theorem behind?_spelling (h : Fits word argument rest) {previous : Option Char} (hp : previous ≠ some ':') :
    colons.behind? previous (spelling own word argument ++ rest) =
      if own = colons then some (word ++ (argumentText argument ++ rest)) else none := by
  obtain ⟨c, more, rfl, colon⟩ := h.head
  cases own <;> cases colons <;> simp [spelling, Colons.text, Colons.behind?, colon, hp]

theorem length_colons (colons : Colons) : colons.text.length = colons.count := by cases colons <;> rfl

theorem pseudoRule_spelling (hn : IsTable names) (h : Fits word argument rest) {previous : Option Char}
    (hp : previous ≠ some ':') :
    pseudoRule colons names replace previous (spelling own word argument ++ rest) =
      (actsOn colons names replace own word argument).map ((spelling own word argument).length, ·) := by
  obtain ⟨stops, size, opening⟩ := h.tail
  rw [pseudoRule, behind?_spelling h hp]
  by_cases same : own = colons
  · subst same
    rw [if_pos rfl]
    dsimp only
    rw [find?_word hn h.word stops, size, opening, actsOn]
    by_cases mem : ⟨lower word, argument.isSome⟩ ∈ names
    · have length : own.count + (word.length + (argumentText argument).length) = (spelling own word argument).length := by
        rw [spelling, List.length_append, List.length_append, length_colons]
      rw [if_pos mem, if_pos ⟨rfl, mem⟩, Option.map_some]
      dsimp only
      rw [length, List.take_left]
    · rw [if_neg mem, if_neg fun both => mem both.2]
      rfl
  · rw [if_neg same, actsOn, if_neg fun both => same both.1]
    rfl

theorem no_colon_mark {c : Char} (h : c ≠ ':') : ∀ d ∈ [c], d ≠ ':' := by
  intro d hd
  rwa [List.mem_singleton.mp hd]

/-- Away from colons a rule does nothing. -/
theorem pseudoRule_plain {c : Char} (hc : c ≠ ':') (previous : Option Char) (rest : List Char) :
    pseudoRule colons names replace previous (c :: rest) = none := by
  cases colons <;> simp [pseudoRule, Colons.behind?, hc]

/-- The second of two colons is none to look at. -/
theorem pseudoRule_second {c : Char} (hc : c ≠ ':') (rest : List Char) :
    pseudoRule colons names replace (some ':') (':' :: c :: rest) = none := by
  cases colons <;> simp [pseudoRule, Colons.behind?, hc]

/-- A sweep that does not start in the middle of colons. -/
def SweepsOn (rule : LocalRule) (text out : List Char) (n : Nat) : Prop :=
  ∀ previous, previous ≠ some ':' → Sweeps rule previous text out n

theorem SweepsOn.nil {rule : LocalRule} : SweepsOn rule [] [] 0 := fun _ _ => .done

theorem SweepsOn.plain {front : List Char} (hf : ∀ c ∈ front, c ≠ ':')
    (h : SweepsOn (pseudoRule colons names replace) rest out n) :
    SweepsOn (pseudoRule colons names replace) (front ++ rest) (front ++ out) n := by
  induction front with
  | nil => exact h
  | cons c front ih =>
      have other := hf c List.mem_cons_self
      intro previous _
      refine .keep (pseudoRule_plain other previous _) (ih (fun d hd => hf d (List.mem_cons_of_mem c hd)) (some c) ?_)
      simpa using other

/-- A pseudo that a rule leaves as it is; its argument is still to be swept. -/
theorem SweepsOn.keep (hn : IsTable names) (h : Fits word argument rest)
    (none : actsOn colons names replace own word argument = .none)
    (hs : SweepsOn (pseudoRule colons names replace) (argumentText argument ++ rest) out n) :
    SweepsOn (pseudoRule colons names replace) (spelling own word argument ++ rest) (own.text ++ (word ++ out)) n := by
  intro previous hp
  have first : pseudoRule colons names replace previous (spelling own word argument ++ rest) = .none := by
    rw [pseudoRule_spelling hn h hp, none, Option.map_none]
  obtain ⟨c, more, rfl, other⟩ := h.head
  have name : Sweeps (pseudoRule colons names replace) (some ':') (c :: (more ++ (argumentText argument ++ rest)))
      (c :: (more ++ out)) n :=
    .keep (pseudoRule_plain other _ _)
      (hs.plain (fun d hd => h.no_colon d (List.mem_cons_of_mem c hd)) (some c) (by simpa using other))
  cases own with
  | one =>
      simp only [spelling, Colons.text, List.cons_append, List.nil_append, List.append_assoc] at first ⊢
      exact .keep first name
  | two =>
      simp only [spelling, Colons.text, List.cons_append, List.nil_append, List.append_assoc] at first ⊢
      exact .keep first (.keep (pseudoRule_second other _) name)

/-- A pseudo ends with its name or with a parenthesis. -/
theorem getLast?_spelling (h : Fits word argument rest) {c : Char}
    (hc : (spelling own word argument).getLast? = some c) : isWordChar c = true ∨ c = ')' := by
  rw [spelling, List.getLast?_append_of_ne_nil _ (by simp [h.nonempty])] at hc
  cases argument with
  | none =>
      rw [argumentText, List.append_nil] at hc
      exact .inl (h.word c (List.mem_of_getLast? hc))
  | some text =>
      rw [argumentText, ← List.cons_append, ← List.append_assoc, List.getLast?_concat] at hc
      exact .inr (Option.some.inj hc).symm

/-- A pseudo that a rule replaces, together with its argument. -/
theorem SweepsOn.edit (hn : IsTable names) (h : Fits word argument rest) {replacement : List Char}
    (some : actsOn colons names replace own word argument = .some replacement)
    (hs : SweepsOn (pseudoRule colons names replace) rest out n) :
    SweepsOn (pseudoRule colons names replace) (spelling own word argument ++ rest) (replacement ++ out) (n + 1) := by
  intro previous hp
  have found : pseudoRule colons names replace previous (spelling own word argument ++ rest) =
      .some ((spelling own word argument).length, replacement) := by
    rw [pseudoRule_spelling hn h hp, some, Option.map_some]
  have visible : spelling own word argument ≠ [] := by simp [spelling, h.nonempty]
  refine .edit visible found (hs _ fun last => ?_)
  rcases getLast?_spelling h last with letter | closing
  · exact absurd letter (by decide)
  · exact absurd closing (by decide)

end
end StyleAudit.Selector
