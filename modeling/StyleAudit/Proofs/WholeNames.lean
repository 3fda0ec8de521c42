import StyleAudit.Proofs.LocalNames
import StyleAudit.Proofs.RepairProgress
/-!
Names that are found without an argument. A rule stops at the first character that is in no word of ASCII, while a name of
the grammar goes on through other characters and through escapes. So what a rule finds is the beginning of a name, and it
is the name itself where neither of these stands behind it.
-/
namespace StyleAudit.Selector

open Text (Scan)
open PseudoName (plain)

/-- The rules that also look for names without an argument. -/
def nameRules : List RepairRule := repairRules.take 2 ++ repairRules.drop 8

/-- What such a rule looks for: names, and how many colons stand in front of them. -/
inductive Seeks : RepairRule → Colons → List PseudoName → Prop
  | elements : Seeks ⟨some .pseudoElementConfusion, secondColon.edits⟩ .one singleColonElements
  | classes : Seeks ⟨some .pseudoClassConfusion, oneColon.edits⟩ .two doubleColonClasses
  | removed {r : Removal} : r ∈ removals → Seeks ⟨r.kind, (removal r.colons r.names).edits⟩ r.colons r.names

theorem exists_seeks {rule : RepairRule} (h : rule ∈ nameRules) : ∃ own names, Seeks rule own names := by
  rw [nameRules, removals_rules] at h
  rcases List.mem_append.mp h with first | later
  · simp only [repairRules, List.take_succ_cons, List.take_zero, List.mem_cons, List.not_mem_nil, or_false] at first
    rcases first with rfl | rfl
    · exact ⟨_, _, .elements⟩
    · exact ⟨_, _, .classes⟩
  · obtain ⟨r, mem, rfl⟩ := List.mem_map.mp later
    exact ⟨_, _, .removed mem⟩

/-- Whether a name begins with a small letter from a to z. -/
def beginsSmall (name : String) : Bool :=
  match name.toList with
  | c :: _ => decide (97 ≤ c.toNat ∧ c.toNat ≤ 122)
  | [] => false

theorem removals_tables : ∀ r ∈ removals, (r.names.all fun n => beginsSmall n.name && n.name != "" &&
    n.name.toList.all fun c => isWordChar c && c.toLower == c) = true := by
  decide +kernel

theorem Seeks.table {rule : RepairRule} {own : Colons} {names : List PseudoName} (h : Seeks rule own names) :
    IsNameTable names ∧ ∀ n ∈ names, beginsSmall n.name = true := by
  cases h with
  | elements => exact ⟨singleColonElements_table, by decide +kernel⟩
  | classes => exact ⟨doubleColonClasses_table, by decide +kernel⟩
  | removed mem =>
      have checked := removals_tables _ mem
      simp only [List.all_eq_true, Bool.and_eq_true] at checked
      refine ⟨isNameTable_of_all ?_, fun n hn => (checked n hn).1.1⟩
      simp only [List.all_eq_true, Bool.and_eq_true]
      exact fun n hn => ⟨(checked n hn).1.2, (checked n hn).2⟩

theorem Seeks.edits {rule : RepairRule} {own : Colons} {names : List PseudoName} (h : Seeks rule own names) :
    ∃ replace, rule.edits = (pseudoRule own names replace).edits := by
  cases h with
  | elements => exact ⟨_, rfl⟩
  | classes => exact ⟨_, rfl⟩
  | removed mem => exact ⟨_, rfl⟩

/-! The name at a place. -/

/-- A character past ASCII that a name may hold. -/
def isPastAscii (c : Char) : Bool := decide (128 ≤ c.toNat) && !isZeroWidth c

theorem isNameChar_eq (c : Char) : isNameChar c = (isWordChar c || isPastAscii c) := by
  rw [Bool.eq_iff_iff, Bool.or_eq_true, isNameChar_iff, isNameStart_iff, isWordChar_iff, isPastAscii, Bool.and_eq_true,
    decide_eq_true_iff, Bool.not_eq_true', Bool.eq_false_iff, ne_eq, isZeroWidth_iff]
  omega

theorem stopsAt_isNameChar {text : List Char} (ascii : StopsAt isWordChar text) :
    StopsAt isNameChar text ↔ StopsAt isPastAscii text := by
  refine ⟨fun h => h.mono fun c past => by rw [isNameChar_eq, past, Bool.or_true], fun h c first => ?_⟩
  rw [isNameChar_eq, ascii c first, h c first]
  rfl

theorem nameChars_stops {text : List Char} (stops : StopsAt isNameChar text) (escape : startsEscape text = false) :
    nameChars text = ⟨[], 0⟩ :=
  (NameForm.stop stops escape).read

theorem stops_of_nameChars {text : List Char} (none : (nameChars text).value = []) :
    StopsAt isNameChar text ∧ startsEscape text = false := by
  obtain ⟨front, rest, rfl, form, -⟩ := name_form text
  rw [none] at form
  cases form with
  | stop stops escape => exact ⟨stops, escape⟩

theorem startsIdent_small {word : List Char} (h : beginsSmall (lower word) = true) (behind : List Char) :
    startsIdent (word ++ behind) = true := by
  rw [beginsSmall, toList_lower] at h
  cases word with
  | nil => cases h
  | cons c word =>
      rw [List.map_cons, decide_eq_true_iff] at h
      have letter : isLetter c = true := by
        rw [isLetter_iff]
        by_cases upper : 65 ≤ c.toNat ∧ c.toNat ≤ 90
        · exact .inl upper
        · rw [toLower_eq_self upper] at h
          exact .inr (.inl h)
      have dash : c ≠ '-' := by
        rintro rfl
        exact absurd letter (by decide)
      rw [List.cons_append, startsIdent.eq_def]
      dsimp only
      rw [if_neg dash, isNameStart_of_isLetter letter, Bool.true_or]

/-! Edits. -/

/-- An edit at a name without an argument, and what the grammar reads at the place of the name. -/
structure EditsName (own : Colons) (names : List PseudoName) (text : List Char) (e : Edit)
    (front word behind : List Char) : Prop where
  parts : text = front ++ (own.text ++ (word ++ behind))
  start : e.start = front.length
  matched : e.matched text = own.text ++ word
  named : plain (lower word) ∈ names
  /-- Behind the name there is no more of a word in ASCII and no argument. -/
  ends : StopsAt (fun c => isWordChar c || c == '(') behind
  /-- The identifier begins with the name, and goes on as a name does from there. -/
  identifier : ∀ pos, ident .pseudo pos (word ++ behind) =
    .ok ⟨String.ofList (word ++ (nameChars behind).value), word.length + (nameChars behind).size⟩
  /-- It is the name itself just if the next character is in no identifier and begins no escape. -/
  whole : (∀ pos, ident .pseudo pos (word ++ behind) = .ok ⟨String.ofList word, word.length⟩) ↔
    StopsAt isNameChar behind ∧ startsEscape behind = false
  /-- Only a character past ASCII can go on with it. -/
  goesOn : StopsAt isNameChar behind ↔ StopsAt isPastAscii behind

theorem ident_small {word : List Char} (small : beginsSmall (lower word) = true)
    (hw : ∀ c ∈ word, isWordChar c = true) (behind : List Char) (role : NameRole) (pos : Nat) :
    ident role pos (word ++ behind) =
      .ok ⟨String.ofList (word ++ (nameChars behind).value), word.length + (nameChars behind).size⟩ := by
  have visible : word ++ (nameChars behind).value ≠ [] := by
    rintro none
    rw [(List.append_eq_nil_iff.mp none).1, beginsSmall, toList_lower] at small
    cases small
  rw [ident.eq_def, if_pos (startsIdent_small small behind), name,
    nameChars_append fun c hc => isNameChar_of_isWordChar (hw c hc)]
  exact if_neg visible

/-- A rule that looks for names without an argument edits the beginning of an identifier, whose name is in the table. The
identifier is cut where a character past ASCII or an escape goes on with it, and nowhere else. -/
theorem mem_edits_name (rule : RepairRule) (text : List Char) (e : Edit) (hr : rule ∈ nameRules)
    (he : e ∈ rule.edits text) (bare : '(' ∉ e.matched text) : ∃ own names front word behind,
      Seeks rule own names ∧ EditsName own names text e front word behind := by
  obtain ⟨own, names, seeks⟩ := exists_seeks hr
  obtain ⟨table, small⟩ := seeks.table
  obtain ⟨replace, edits⟩ := seeks.edits
  rw [edits, LocalRule.edits] at he
  obtain ⟨front, rest, previous, rfl, start, found⟩ := mem_editsFrom he
  rw [Nat.zero_add] at start
  obtain ⟨word, argument, behind, rfl, named, size, -, fits, -⟩ := pseudoRule_some table found
  have matched : e.matched (front ++ (spelling own word argument ++ behind)) = spelling own word argument := by
    rw [Edit.matched, start, List.drop_left, size, List.take_left]
  rw [matched] at bare
  obtain rfl : argument = none := by
    cases argument with
    | none => rfl
    | some inner =>
        refine absurd ?_ bare
        simp [spelling, argumentText]
  have ident_ := ident_small (small _ named) fits.word behind .pseudo
  refine ⟨own, names, front, word, behind, seeks, ?_, start, ?_, named, fits.ends rfl, ident_, ?_, ?_⟩
  · simp [spelling, argumentText]
  · rw [matched]
    simp [spelling, argumentText]
  · constructor
    · intro itself
      have same := (ident_ 0).symm.trans (itself 0)
      have value := String.ofList_injective (congrArg Scan.value (Except.ok.inj same))
      exact stops_of_nameChars (List.append_right_eq_self.mp value)
    · rintro ⟨stops, escape⟩ pos
      rw [ident_, nameChars_stops stops escape, List.append_nil, Nat.add_zero]
  · exact stopsAt_isNameChar ((fits.ends rfl).mono fun c letter => by rw [letter, Bool.true_or])

/-- A name in capitals, with a class behind it. -/
theorem mem_edits_name_left : ∃ own names front word behind,
    (⟨none, (removal .one unsupportedClasses).edits⟩ : RepairRule) ∈ nameRules ∧
      (⟨1, 5, []⟩ : Edit) ∈ (removal .one unsupportedClasses).edits "a:LEFT.b".toList ∧
        '(' ∉ (⟨1, 5, []⟩ : Edit).matched "a:LEFT.b".toList ∧
          Seeks ⟨none, (removal .one unsupportedClasses).edits⟩ own names ∧
            EditsName own names "a:LEFT.b".toList ⟨1, 5, []⟩ front word behind := by
  have rule : (⟨none, (removal .one unsupportedClasses).edits⟩ : RepairRule) ∈ nameRules := by
    simp [nameRules, repairRules]
  have edit : (⟨1, 5, []⟩ : Edit) ∈ (removal .one unsupportedClasses).edits "a:LEFT.b".toList := by decide +kernel
  have bare : '(' ∉ (⟨1, 5, []⟩ : Edit).matched "a:LEFT.b".toList := by decide +kernel
  obtain ⟨own, names, front, word, behind, seeks, edits⟩ :=
    mem_edits_name ⟨none, (removal .one unsupportedClasses).edits⟩ "a:LEFT.b".toList ⟨1, 5, []⟩ rule edit bare
  exact ⟨own, names, front, word, behind, rule, edit, bare, seeks, edits⟩

/-- An identifier that goes on past ASCII is cut: its first letters are taken out, and the last one is left alone. -/
theorem mem_edits_cut : (⟨none, (removal .one unsupportedClasses).edits⟩ : RepairRule) ∈ nameRules ∧
    (removal .one unsupportedClasses).edits ":firsté".toList = [⟨0, 6, []⟩] ∧
      (⟨0, 6, []⟩ : Edit).matched ":firsté".toList = ":first".toList ∧
        ":firsté".toList.drop (⟨0, 6, []⟩ : Edit).stop = ['é'] ∧ isNameChar 'é' = true ∧
          (repair ":firsté".toList).text = ['é'] := by
  refine ⟨?_, by decide +kernel, by decide +kernel, by decide +kernel, by decide +kernel, by decide +kernel⟩
  simp [nameRules, repairRules]

end StyleAudit.Selector
