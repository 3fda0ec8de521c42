import StyleAudit.Proofs.JoinedLists
/-!
Texts that are one compound and nothing else. A pseudo-class with an argument, alone in a text, is accepted where its
argument is, and what is wrong with the argument is wrong with the text.
-/
namespace StyleAudit.Selector

open Text (Scan)

theorem IsBlank.eq_nil_of_last {front blank : List Char} {c : Char} (h : IsBlank blank)
    (last : (front ++ blank).getLast? = some c) (visible : isSpace c = false) : blank = [] := by
  rcases List.eq_nil_or_concat blank with none | ⟨more, d, rfl⟩
  · exact none
  · rw [List.concat_eq_append, ← List.append_assoc, List.getLast?_concat] at last
    obtain rfl := Option.some.inj last
    rw [h d (by simp)] at visible
    cases visible

theorem spaces_trimmed {text : List Char} (trimmed : Text.trim text = text) : spaces text = 0 :=
  spaces_none fun c hc => isSpace_of_not_isBlank ((Text.trim_ends text).1 c (by rwa [trimmed]))

/-- A trimmed text does not end in white space. -/
theorem blank_of_trimmed {front blank : List Char} (hb : IsBlank blank)
    (trimmed : Text.trim (front ++ blank) = front ++ blank) : blank = [] := by
  cases last : (front ++ blank).getLast? with
  | none => exact (List.append_eq_nil_iff.mp (List.getLast?_eq_none_iff.mp last)).2
  | some c =>
      have visible := (Text.trim_ends (front ++ blank)).2 c (by rwa [trimmed])
      exact hb.eq_nil_of_last last (isSpace_of_not_isBlank visible)

theorem isBlank_of_spaces {text : List Char} (h : text.length ≤ spaces text) : IsBlank text := by
  have whole : text.takeWhile isSpace = text := (List.takeWhile_prefix isSpace).eq_of_length_le h
  exact List.takeWhile_eq_self_iff.mp whole

/-- A text is a list of one compound where that is read from all of it but white space. -/
theorem selectors_lone_iff {text : List Char} {parts : Compound} :
    selectors 0 text = .ok [⟨parts, []⟩] ↔ ∃ n, compound (spaces text) (text.drop (spaces text)) = .ok ⟨parts, n⟩ ∧
      IsBlank (text.drop (spaces text + n)) := by
  constructor
  · intro accepted
    generalize same : [(⟨parts, []⟩ : Complex)] = list at accepted
    cases selectors_form accepted with
    | last found done =>
        obtain ⟨first, more, read, tail, rfl⟩ := complex_form found
        obtain ⟨rfl, none⟩ := Complex.mk.inj (List.cons.inj same).1
        rw [Nat.zero_add] at read tail
        rw [List.drop_drop] at tail
        refine ⟨first.size, read, ?_⟩
        cases links_form tail with
        | stop =>
            rw [Scan.behind_size, ← Nat.add_assoc, ← List.drop_drop, List.drop_eq_nil_iff] at done
            exact isBlank_of_spaces done
        | link => cases none
    | more _ _ read =>
        obtain ⟨-, rfl⟩ := List.cons.inj same
        cases selectors_form read
  · rintro ⟨n, read, blank⟩
    have ending : EndsSelector [] := fun c hc => by cases hc
    have nothing := links_end blank ending (spaces text + n)
    rw [List.append_nil, ← List.drop_drop] at nothing
    have found : complex (0 + spaces text) (text.drop (spaces text)) =
        .ok ⟨⟨parts, []⟩, n + ((text.drop (spaces text)).drop n).length⟩ := by
      rw [complex_eq, Nat.zero_add, read]
      dsimp only [bind, Except.bind]
      rw [nothing]
      rfl
    have done : text.drop (spaces text + (n + ((text.drop (spaces text)).drop n).length)) = [] := by
      rw [List.drop_eq_nil_iff, List.length_drop, List.length_drop]
      omega
    rw [selectors_eq, found]
    change selectorsBehind text 0 ⟨⟨parts, []⟩, n + ((text.drop (spaces text)).drop n).length⟩ = _
    rw [selectorsBehind, done]

/-- A text without blanks at its ends is a list of one compound where that is read from all of it. -/
theorem parse_lone_iff {text : List Char} (trimmed : Text.trim text = text) {parts : Compound} :
    parse (String.ofList text) = .ok [⟨parts, []⟩] ↔ ∃ n, compound 0 text = .ok ⟨parts, n⟩ ∧ text.drop n = [] := by
  have whole (n : Nat) : IsBlank (text.drop n) ↔ text.drop n = [] := by
    refine ⟨fun blank => ?_, fun none => by rw [none]; exact .nil⟩
    rw [← List.take_append_drop n text] at trimmed
    exact blank_of_trimmed blank trimmed
  rw [parse, String.toList_ofList, selectors_lone_iff, spaces_trimmed trimmed]
  simp only [List.drop_zero, Nat.zero_add, whole]

theorem selectors_rejected {text : List Char} {r : Rejection} (noSpace : spaces text = 0)
    (rejected : compound 0 text = .error r) : selectors 0 text = .error r := by
  rw [selectors_eq, noSpace, List.drop_zero, complex, rejected]
  rfl

/-! Texts that begin with the mark of a simple selector. -/

theorem simples_nothing {pos n : Nat} {text : List Char} (h : simples pos text = .ok ⟨[], n⟩) : n = 0 := by
  generalize same : (⟨[], n⟩ : Scan Compound) = s at h
  cases simples_form h with
  | stop => exact congrArg Scan.size same
  | _ => cases congrArg Scan.value same

/-- The simple selector that a mark begins, read behind it. -/
def begun (c : Char) (rest : List Char) (pos : Nat) : Except Rejection (Scan Simple) :=
  if c = ':' then pseudoSimple rest pos else marked c rest pos

theorem simples_begun {c : Char} (h : beginsSimple c = true) (pos : Nat) (rest : List Char) :
    simples pos (c :: rest) = begun c rest (pos + 1) >>= simplesBehind rest pos := by
  have name : startsIdent (c :: rest) = false := startsIdent_of_stops (StopsAt.cons (extendsSimple_of_begins h)).name
  have star : c ≠ '*' := by
    rintro rfl
    cases h
  rw [simples_cons, begun]
  by_cases colon : c = ':'
  · rw [if_pos colon, if_pos colon]
  · have mark : c = '.' ∨ c = '#' ∨ c = '&' ∨ c = '[' := by simpa [beginsSimple, colon, or_assoc] using h
    rw [if_neg colon, if_neg colon, if_neg star, name, if_neg Bool.false_ne_true, if_pos mark]

theorem compound_begun {c : Char} (h : beginsSimple c = true) (pos : Nat) (rest : List Char) :
    compound pos (c :: rest) = begun c rest (pos + 1) >>= simplesBehind rest pos := by
  rw [compound_eq, typeSelector_none h]
  dsimp only [bind, Except.bind]
  rw [Nat.add_zero, List.drop_zero, simples_begun h]
  cases begun c rest (pos + 1) with
  | error _ => rfl
  | ok first =>
      dsimp only [bind, Except.bind]
      rw [simplesBehind]
      cases simples (pos + (1 + first.size)) (rest.drop first.size) with
      | error _ => rfl
      | ok more => simp [Except.map, Scan.behind]

/-- A text of one simple selector is rejected where that is, and else a list of it alone. -/
theorem parse_begun {c : Char} (h : beginsSimple c = true) {rest : List Char} {read : Except Rejection Simple}
    (whole : begun c rest 1 = read.map (⟨·, rest.length⟩)) :
    parse (String.ofList (c :: rest)) = read.map fun simple => [⟨[simple], []⟩] := by
  have noSpace : spaces (c :: rest) = 0 := by
    refine spaces_none (.cons ?_)
    simp only [beginsSimple, Bool.or_eq_true, beq_iff_eq, or_assoc] at h
    rcases h with rfl | rfl | rfl | rfl | rfl <;> decide
  have compounds := compound_begun h 0 rest
  rw [Nat.zero_add, whole] at compounds
  rw [parse, String.toList_ofList]
  cases read with
  | error r => exact selectors_rejected noSpace compounds
  | ok simple =>
      have nothing : simples (0 + (1 + rest.length)) (rest.drop rest.length) = .ok ⟨[], 0⟩ := by
        rw [List.drop_length]
        exact simples_stops .nil _
      refine selectors_lone_iff.mpr ⟨1 + rest.length, ?_, ?_⟩
      · rw [noSpace]
        refine compounds.trans ?_
        change simplesBehind rest 0 ⟨simple, rest.length⟩ = _
        rw [simplesBehind, nothing]
        rfl
      · rw [noSpace, Nat.zero_add, drop_cons_add, List.drop_length]
        exact .nil

theorem parse_colon {rest : List Char} {read : Except Rejection Simple}
    (h : pseudoSimple rest 1 = read.map (⟨·, rest.length⟩)) :
    parse (String.ofList (':' :: rest)) = read.map fun simple => [⟨[simple], []⟩] :=
  parse_begun rfl h

theorem pseudo_of_lone {rest : List Char} {simple : Simple} (trimmed : Text.trim (':' :: rest) = ':' :: rest)
    (h : parse (String.ofList (':' :: rest)) = .ok [⟨[simple], []⟩]) :
    ∃ n, pseudoSimple rest 1 = .ok ⟨simple, n⟩ ∧ rest.drop n = [] := by
  obtain ⟨n, read, whole⟩ := (parse_lone_iff trimmed).mp h
  rw [compound_begun rfl] at read
  obtain ⟨first, found, read⟩ := bind_eq_ok read
  obtain ⟨⟨more, m⟩, tail, same⟩ := map_eq_ok read
  obtain ⟨value, rfl⟩ := Scan.mk.inj same
  obtain ⟨rfl, rfl⟩ := List.cons.inj value
  obtain rfl := simples_nothing tail
  refine ⟨first.size, found, ?_⟩
  rwa [Nat.add_zero, drop_cons_add] at whole

/-! Calls: a pseudo-class with an argument. -/

def call (word argument : List Char) : List Char := ':' :: (word ++ '(' :: (argument ++ [')']))

theorem trim_call (word argument : List Char) : Text.trim (call word argument) = call word argument := by
  have enclosed := trim_enclosed ':' ')' rfl rfl (word ++ '(' :: argument)
  rwa [List.append_assoc, List.cons_append] at enclosed

section

variable {word argument : List Char} (h : isIdentifier word = true)
include h

/-- A name with a parenthesis behind it is read as far as its argument goes. -/
theorem argumentSize_of_pseudo {pos : Nat} {s : Scan Pseudo} (read : pseudo pos (word ++ '(' :: argument) = .ok s) :
    ∃ size, argumentSize 0 none argument = some size ∧ s.size = word.length + (size + 2) := by
  have name : ident .pseudo pos (word ++ '(' :: argument) = .ok ⟨String.ofList word, word.length⟩ :=
    ident_identifier h (.cons (by decide)) .pseudo pos
  have ended : ∀ {size : Nat} {rest : List Char} {s : Scan String}, ident .pseudo pos (word ++ '(' :: argument) = .ok s →
      (word ++ '(' :: argument).drop s.size = '(' :: rest → argumentSize 0 none rest = some size →
        ∃ size', argumentSize 0 none argument = some size' ∧ s.size + 1 + size + 1 = word.length + (size' + 2) := by
    intro size rest s again opening closing
    obtain rfl := Except.ok.inj (name.symm.trans again)
    rw [List.drop_left] at opening
    obtain rfl := (List.cons.inj opening).2
    exact ⟨size, closing, by simp only []; omega⟩
  generalize text : word ++ '(' :: argument = rest at read name ended
  cases pseudo_form read with
  | element =>
      obtain ⟨c, more, rfl, colon⟩ := identifier_noColon h
      exact absurd (List.cons.inj text).1 colon
  | negation again opening closing => exact ended again opening closing
  | function again opening closing => exact ended again opening closing
  | plain again closed =>
      subst text
      obtain rfl := Except.ok.inj (name.symm.trans again)
      rw [List.drop_left] at closed
      exact absurd rfl closed

/-- The argument of a call alone is what stands before the last parenthesis. -/
theorem argumentSize_of_lone {simple : Simple} (lone : parse (String.ofList (call word argument)) = .ok [⟨[simple], []⟩]) :
    argumentSize 0 none (argument ++ [')']) = some argument.length := by
  obtain ⟨n, read, whole⟩ := pseudo_of_lone (trim_call word argument) lone
  obtain ⟨⟨value, m⟩, found, read⟩ := bind_eq_ok read
  obtain rfl : m = n := by
    cases value with
    | simple simple => exact congrArg Scan.size (Except.ok.inj read)
    | negation start size =>
        obtain ⟨inner, -, same⟩ := map_eq_ok read
        exact congrArg Scan.size same
  obtain ⟨size, closing, rfl⟩ := argumentSize_of_pseudo h found
  have inside := argumentSize_lt closing
  rw [List.drop_eq_nil_iff] at whole
  simp only [List.length_append, List.length_cons, List.length_nil] at inside whole
  rw [closing]
  congr 1
  omega

variable (ha : argumentSize 0 none (argument ++ [')']) = some argument.length)
include ha

/-- A negation alone is what its argument is. -/
theorem parse_negation_call (not : (String.ofList word).toLower = "not") :
    parse (String.ofList (call word argument)) =
      (negated (word.length + 2) argument).map fun simple => [⟨[.negation simple], []⟩] := by
  have size : (word ++ '(' :: (argument ++ [')'])).length = word.length + (argument.length + 2) := by simp
  have inside : ((word ++ '(' :: (argument ++ [')'])).drop (word.length + 1)).take argument.length = argument := by
    rw [← List.drop_drop, List.drop_left]
    exact List.take_left
  have read := pseudo_call h ha 1
  rw [if_pos not] at read
  have whole : pseudoSimple (word ++ '(' :: (argument ++ [')'])) 1 =
      ((negated (word.length + 2) argument).map Simple.negation).map (⟨·, (word ++ '(' :: (argument ++ [')'])).length⟩) := by
    rw [pseudoSimple, read]
    dsimp only [bind, Except.bind]
    rw [inside, size, Nat.add_comm 1]
    cases negated (word.length + 2) argument <;> rfl
  refine (parse_colon whole).trans ?_
  cases negated (word.length + 2) argument <;> rfl

/-- Any other call alone is what its function is. -/
theorem parse_function_call (other : (String.ofList word).toLower ≠ "not") :
    parse (String.ofList (call word argument)) =
      (pseudoFunction (word.length + 2) (word.length + 2 + argument.length + 1) (String.ofList word) argument).map
        fun simple => [⟨[simple], []⟩] := by
  have size : (word ++ '(' :: (argument ++ [')'])).length = word.length + (argument.length + 2) := by simp
  have read := pseudo_call h ha 1
  rw [if_neg other, Nat.add_comm 1] at read
  refine parse_colon ?_
  rw [pseudoSimple, read, size]
  cases pseudoFunction (word.length + 2) (word.length + 2 + argument.length + 1) (String.ofList word) argument <;> rfl

end

end StyleAudit.Selector
