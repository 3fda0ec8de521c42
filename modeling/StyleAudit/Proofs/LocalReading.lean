import StyleAudit.Proofs.LocalNames
import StyleAudit.Proofs.ShiftedReading
/-!
Pseudos and compounds in front of other text: each reader takes the same of a text in front of whatever does not go on
with it.
-/
namespace StyleAudit.Selector

open Text (Scan)

/-! Arguments. -/

/-- A text with the parenthesis that ends an argument behind so many characters, whatever stands behind that. -/
def EndsArgument (depth : Nat) (quote : Option Char) (text : List Char) (size : Nat) : Prop :=
  ∃ front rest, text = front ++ ')' :: rest ∧ size = front.length ∧
    ∀ other, argumentSize depth quote (front ++ ')' :: other) = some size

theorem EndsArgument.behind {depth depth' size : Nat} {quote quote' : Option Char} {text : List Char} (piece : List Char)
    (h : EndsArgument depth' quote' text size)
    (step : ∀ rest, argumentSize depth quote (piece ++ rest) = (argumentSize depth' quote' rest).map (piece.length + ·)) :
    EndsArgument depth quote (piece ++ text) (piece.length + size) := by
  obtain ⟨front, rest, rfl, rfl, again⟩ := h
  refine ⟨piece ++ front, rest, by simp, by simp, fun other => ?_⟩
  rw [List.append_assoc, step, again other]
  rfl

theorem endsArgument {depth size : Nat} {quote : Option Char} {text : List Char}
    (h : argumentSize depth quote text = some size) : EndsArgument depth quote text size := by
  match text with
  | [] =>
      rw [argumentSize.eq_def] at h
      cases h
  | c :: text =>
      -- a step over one character, or over two behind a backslash
      have one : ∀ (depth' : Nat) (quote' : Option Char),
          (∀ rest, argumentSize depth quote (c :: rest) = (argumentSize depth' quote' rest).map (1 + ·)) →
            EndsArgument depth quote (c :: text) size := by
        intro depth' quote' step
        rw [step] at h
        obtain ⟨n, read, rfl⟩ := Option.map_eq_some_iff.mp h
        exact (endsArgument read).behind [c] step
      cases quote with
      | some q =>
          by_cases closing : c = q
          · exact one depth none fun rest => by rw [argumentSize.eq_def]; simp only [if_pos closing]
          · by_cases slash : c = '\\'
            · subst slash
              match text with
              | [] =>
                  rw [argumentSize.eq_def] at h
                  simp [closing] at h
              | d :: text =>
                  have step : ∀ rest, argumentSize depth (some q) ('\\' :: d :: rest) =
                      (argumentSize depth (some q) rest).map (2 + ·) := by
                    intro rest
                    rw [argumentSize.eq_def]
                    simp only [if_neg closing, if_pos]
                  rw [step] at h
                  obtain ⟨n, read, rfl⟩ := Option.map_eq_some_iff.mp h
                  exact (endsArgument read).behind ['\\', d] step
            · exact one depth (some q) fun rest => by
                rw [argumentSize.eq_def]; simp only [if_neg closing, if_neg slash]
      | none =>
          by_cases quote : c = '"' ∨ c = '\''
          · exact one depth (some c) fun rest => by rw [argumentSize.eq_def]; simp only [if_pos quote]
          · by_cases opening : c = '('
            · exact one (depth + 1) none fun rest => by
                rw [argumentSize.eq_def]; simp only [if_neg quote, if_pos opening]
            · by_cases closing : c = ')'
              · subst closing
                cases depth with
                | zero =>
                    rw [argumentSize.eq_def] at h
                    obtain rfl : 0 = size := by simpa using h
                    exact ⟨[], text, rfl, rfl, fun other => by rw [argumentSize.eq_def]; simp⟩
                | succ outer => exact one outer none fun rest => argumentSize_closing outer rest
              · exact one depth none fun rest => by
                  rw [argumentSize.eq_def]; simp only [if_neg quote, if_neg opening, if_neg closing]

theorem argumentSize_lt {depth size : Nat} {quote : Option Char} {text : List Char}
    (h : argumentSize depth quote text = some size) : size < text.length := by
  obtain ⟨front, rest, rfl, rfl, -⟩ := endsArgument h
  simp

/-! Pseudo-classes and pseudo-elements. -/

theorem ident_colon {role : NameRole} {pos : Nat} {rest : List Char} {s : Scan String} :
    ident role pos (':' :: rest) ≠ .ok s := by
  have starts : startsIdent (':' :: rest) = false := startsIdent_of_stops (.cons (by decide))
  intro h
  unfold ident at h
  rw [starts] at h
  cases h

theorem PseudoForm.read {pos : Nat} {text : List Char} {s : Scan Pseudo} (h : PseudoForm pos text s) :
    pseudo pos text = .ok s := by
  cases h with
  | element found element =>
      rename_i name simple
      simp only [pseudo, found, bind, Except.bind, drop_cons_add, element]
      rfl
  | negation found opening closing not =>
      unfold pseudo
      split
      · exact absurd found ident_colon
      · simp only [found, bind, Except.bind, opening, closing, if_pos not]
        rfl
  | function found opening closing other function =>
      unfold pseudo
      split
      · exact absurd found ident_colon
      · simp only [found, bind, Except.bind, opening, closing, if_neg other, function]
        rfl
  | plain found closed plain =>
      unfold pseudo
      split
      · exact absurd found ident_colon
      · simp only [found, bind, Except.bind]
        split
        · next opening => exact absurd (by rw [opening]; rfl) closed
        · simp only [plain]
          rfl

theorem pseudoElement_behind {pos : Nat} {name : String} {rest : List Char} {simple : Simple}
    (h : pseudoElement pos name rest = .ok simple) {other : List Char} (closed : other.head? ≠ some '(') :
    pseudoElement pos name other = .ok simple := by
  have none : (other.head? == some '(') = false := by simpa using closed
  unfold pseudoElement at h ⊢
  rw [none]
  split at h
  · next element found open' =>
      rw [found]
      exact h
  · split at h <;> cases h

/-- A pseudo that is read ends where a character goes on with none; the argument of a negation is inside. -/
theorem pseudo_local {pos : Nat} {text : List Char} {s : Scan Pseudo} (h : pseudo pos text = .ok s) :
    ∃ front rest, text = front ++ rest ∧ IsLocal extendsSimple (pseudo pos) front rest s ∧
      ∀ start size, s.value = .negation start size → start + size ≤ front.length := by
  have closed : ∀ {other}, StopsAt extendsSimple other → other.head? ≠ some '(' := by
    intro other stops opening
    exact absurd (stops _ opening) (by decide)
  -- a name in front of a parenthesis
  have called : ∀ {word argument rest : List Char} {name : Scan String}, IsLocal extendsName (ident .pseudo pos) word
      ('(' :: rest) name → ∀ other, ident .pseudo pos (word ++ '(' :: (argument ++ other)) = .ok name :=
    fun read other => read.again _ ⟨.cons (by decide), fun _ _ => .cons (by decide)⟩
  cases pseudo_form h with
  | element found element =>
      rename_i name simple
      obtain ⟨word, rest, rfl, -, -, -, read⟩ := ident_local found
      refine ⟨':' :: word, rest, rfl, ⟨by simp [read.size, Nat.add_comm 1], fun other follows => ?_⟩,
        fun _ _ same => by cases same⟩
      have again := read.again other ((follows.tail [_]).mono fun c hc => by simp [extendsSimple, hc])
      rw [read.size, List.drop_left] at element
      refine PseudoForm.read (.element again ?_)
      change pseudoElement _ _ ((word ++ other).drop name.size) = _
      rw [read.size, List.drop_left]
      exact pseudoElement_behind element (closed follows.stops)
  | negation found opening closing not =>
      obtain ⟨word, behind, rfl, -, -, -, read⟩ := ident_local found
      rw [read.size, List.drop_left] at opening
      subst opening
      obtain ⟨argument, rest, rfl, rfl, again⟩ := endsArgument closing
      refine ⟨word ++ '(' :: (argument ++ [')']), rest, by simp, ⟨by simp [read.size]; omega, fun other _ => ?_⟩, ?_⟩
      · rw [List.append_assoc, List.cons_append, List.append_assoc, List.singleton_append]
        refine PseudoForm.read (.negation (called read _) ?_ (again other) not)
        rw [read.size, List.drop_left]
      · intro start size same
        obtain ⟨rfl, rfl⟩ := Pseudo.negation.inj same
        simp [read.size]
        omega
  | function found opening closing other function =>
      obtain ⟨word, behind, rfl, -, -, -, read⟩ := ident_local found
      rw [read.size, List.drop_left] at opening
      subst opening
      obtain ⟨argument, rest, rfl, rfl, again⟩ := endsArgument closing
      rw [List.take_left] at function
      refine ⟨word ++ '(' :: (argument ++ [')']), rest, by simp, ⟨by simp [read.size]; omega, fun behind _ => ?_⟩,
        fun _ _ same => by cases same⟩
      rw [List.append_assoc, List.cons_append, List.append_assoc, List.singleton_append]
      refine PseudoForm.read (.function (called read _) ?_ (again behind) other ?_)
      · rw [read.size, List.drop_left]
      · rw [List.take_left]
        exact function
  | plain found _ plain =>
      obtain ⟨word, rest, rfl, -, -, -, read⟩ := ident_local found
      refine ⟨word, rest, rfl, ⟨read.size, fun other follows => ?_⟩,
        fun _ _ same => by cases same⟩
      have again := read.again other (follows.mono fun c hc => by simp [extendsSimple, hc])
      refine PseudoForm.read (.plain again ?_ plain)
      rw [read.size, List.drop_left]
      exact closed follows.stops

/-! Compounds. -/

theorem SimplesForm.read {pos : Nat} {text : List Char} {s : Scan Compound} (h : SimplesForm pos text s) :
    simples pos text = .ok s := by
  cases h with
  | stop starts none =>
      cases text with
      | nil => rw [simples]
      | cons c rest =>
          have mark := none c rfl
          simp only [beginsSimple, Bool.or_eq_false_iff, beq_eq_false_iff_ne] at mark
          obtain ⟨⟨⟨⟨⟨colon, dot⟩, hash⟩, nesting⟩, bracket⟩, star⟩ := mark
          rw [simples, if_neg colon, if_neg star, starts]
          simp [dot, hash, nesting, bracket]
  | pseudo read tail => rw [simples_pseudo read, tail]; rfl
  | negation read inner tail => rw [simples_negation read inner, tail]; rfl
  | className found tail =>
      rw [simples_piece (by rw [if_pos rfl, found]; rfl) (.inl rfl)]
      exact congrArg _ tail
  | id found tail =>
      rw [simples_piece (by rw [if_neg (by decide), if_pos rfl, found]; rfl) (.inr (.inl rfl))]
      exact congrArg _ tail
  | nesting tail =>
      rw [simples_piece (by rw [if_neg (by decide), if_neg (by decide), if_pos rfl]) (.inr (.inr (.inl rfl)))]
      exact congrArg _ tail
  | hasAttribute found tail =>
      rw [simples_piece (by rw [if_neg (by decide), if_neg (by decide), if_neg (by decide), found])
        (.inr (.inr (.inr rfl)))]
      exact congrArg _ tail

/-- A text that simple selectors other than a type selector were read from, if any were. -/
def IsRun (text : List Char) : Prop := text = [] ∨ Begins beginsSimple text

theorem IsRun.stops {front other : List Char} (h : IsRun front) (behind : StopsAt extendsSimple other) :
    StopsAt extendsSimple (front ++ other) := by
  rcases h with rfl | ⟨c, tail, rfl, begins⟩
  · exact behind
  · exact .cons (extendsSimple_of_begins begins)

/-- A mark with what it begins, and the simple selectors behind that. -/
theorem simples_step {α : Type} {q : Char → Bool} {read : List Char → Except Rejection (Scan α)} {piece : Scan α}
    {pos : Nat} {c : Char} {word behind : List Char} {more : Scan Compound} {f : Compound → Compound}
    (first : IsLocal q read word behind piece) (hq : ∀ c, q c = true → extendsSimple c = true)
    (begins : beginsSimple c = true)
    (tail : ∃ front rest, behind = front ++ rest ∧ IsRun front ∧
      IsLocal extendsCompound (simples (pos + (1 + piece.size))) front rest more)
    (build : ∀ other, read (word ++ other) = .ok piece → simples (pos + (1 + piece.size)) other = .ok more →
      simples pos (c :: (word ++ other)) = .ok (more.behind (1 + piece.size) f)) :
    ∃ front rest, c :: (word ++ behind) = front ++ rest ∧ IsRun front ∧
      IsLocal extendsCompound (simples pos) front rest (more.behind (1 + piece.size) f) := by
  obtain ⟨front, rest, rfl, run, later⟩ := tail
  refine ⟨c :: (word ++ front), rest, by simp, .inr ⟨c, _, rfl, begins⟩, ?_, fun other follows => ?_⟩
  · simp [first.size, later.size]
    omega
  · have stops : StopsAt q (front ++ other) := (run.stops follows.stops.simple).mono hq
    have piece_read := first.again _ ((follows.tail [c]).front stops)
    have tail_read := later.again _ (follows.tail (c :: word))
    have whole := build _ piece_read tail_read
    rwa [← List.append_assoc, ← List.cons_append] at whole

theorem simples_local {pos : Nat} {text : List Char} {s : Scan Compound} (h : simples pos text = .ok s) :
    ∃ front rest, text = front ++ rest ∧ IsRun front ∧ IsLocal extendsCompound (simples pos) front rest s := by
  have ofName : ∀ c, extendsName c = true → extendsSimple c = true := fun c hc => by simp [extendsSimple, hc]
  induction whole : text.length using Nat.strong_induction_on generalizing pos text s with | _ length ih => ?_
  have shorter : ∀ {c : Char} {word behind : List Char} {pos : Nat} {s : Scan Compound}, text = c :: (word ++ behind) →
      simples pos behind = .ok s → ∃ front rest, behind = front ++ rest ∧ IsRun front ∧
        IsLocal extendsCompound (simples pos) front rest s :=
    fun same read => ih _ (by rw [← whole, same]; simp) read rfl
  cases simples_form h with
  | stop => exact ⟨[], text, rfl, .inl rfl, rfl, fun other follows => simples_stops follows.stops pos⟩
  | @pseudo text simple n more read tail =>
      obtain ⟨word, behind, rfl, first, -⟩ := pseudo_local read
      obtain rfl : n = word.length := first.size
      rw [List.drop_left] at tail
      refine simples_step first (fun _ => id) rfl (shorter rfl tail) fun other found later => ?_
      exact SimplesForm.read (.pseudo found (by rwa [List.drop_left]))
  | @negation text simple start size n more read inner tail =>
      obtain ⟨word, behind, rfl, first, inside⟩ := pseudo_local read
      obtain rfl : n = word.length := first.size
      have within := inside start size rfl
      have argument : ∀ other, ((word ++ other).drop start).take size = (word.drop start).take size := by
        intro other
        rw [List.drop_append_of_le_length (by omega), List.take_append_of_le_length (by simp; omega)]
      rw [List.drop_left] at tail
      rw [argument] at inner
      refine simples_step first (fun _ => id) rfl (shorter rfl tail) fun other found later => ?_
      exact SimplesForm.read (.negation found (by rwa [argument]) (by rwa [List.drop_left]))
  | @className text name more read tail =>
      obtain ⟨word, behind, rfl, -, -, -, first⟩ := ident_local read
      rw [first.size, List.drop_left, ← first.size] at tail
      refine simples_step first ofName rfl (shorter rfl tail) fun other found later => ?_
      exact SimplesForm.read (.className found (by rwa [first.size, List.drop_left, ← first.size]))
  | @id text name more read tail =>
      obtain ⟨word, behind, rfl, first⟩ := name_local read
      rw [first.size, List.drop_left, ← first.size] at tail
      refine simples_step first ofName rfl (shorter rfl tail) fun other found later => ?_
      exact SimplesForm.read (.id found (by rwa [first.size, List.drop_left, ← first.size]))
  | @nesting text more tail =>
      have first : IsSealed (fun _ => .ok (⟨(), 0⟩ : Scan Unit)) [] ⟨(), 0⟩ := ⟨rfl, fun _ => rfl⟩
      have same : '&' :: text = '&' :: ([] ++ text) := rfl
      exact simples_step first.isLocal (fun _ => id) rfl (shorter same tail) fun other _ later =>
        SimplesForm.read (.nesting later)
  | @hasAttribute text test more read tail =>
      obtain ⟨word, behind, rfl, first⟩ := attributeSelector_sealed read
      rw [first.size, List.drop_left, ← first.size] at tail
      refine simples_step first.isLocal (fun _ => id) rfl (shorter rfl tail) fun other found later => ?_
      exact SimplesForm.read (.hasAttribute found (by rwa [first.size, List.drop_left, ← first.size]))

/-- A compound is read in the same way in front of whatever does not go on with it. -/
theorem compound_local {pos : Nat} {text : List Char} {s : Scan Compound} (h : compound pos text = .ok s) :
    ∃ front rest, text = front ++ rest ∧ Begins extendsCompound front ∧
      IsLocal extendsCompound (compound pos) front rest s := by
  obtain ⟨start, more, typed, read, some, rfl⟩ := compound_form h
  have build : ∀ other, typeSelector pos other = .ok start →
      simples (pos + start.size) (other.drop start.size) = .ok more →
        compound pos other = .ok ⟨start.value ++ more.value, start.size + more.size⟩ := by
    intro other first later
    rw [compound_eq, first]
    simp only [bind, Except.bind, later]
    exact if_neg some
  unfold typeSelector at typed
  split at typed
  · next star =>
      obtain rfl := Except.ok.inj typed
      obtain ⟨behind, rfl⟩ := List.head?_eq_some_iff.mp star
      obtain ⟨front, rest, rfl, run, later⟩ := simples_local read
      refine ⟨'*' :: front, rest, rfl, ⟨_, _, rfl, by decide⟩, by simp [later.size, Nat.add_comm],
        fun other follows => ?_⟩
      exact build _ rfl (later.again other (follows.tail [_]))
  · next star =>
      split at typed
      · obtain ⟨name, found, rfl⟩ := map_eq_ok typed
        obtain ⟨word, behind, rfl, ⟨c, tail, rfl, extending⟩, -, starts, first⟩ := ident_local found
        rw [Scan.map_size, first.size, List.drop_left] at read
        obtain ⟨front, rest, rfl, run, later⟩ := simples_local read
        have begins : Begins extendsCompound (c :: tail ++ front) :=
          ⟨c, tail ++ front, rfl, by simp [extendsCompound, extendsSimple, extending]⟩
        refine ⟨c :: tail ++ front, rest, by simp, begins,
          by simp [first.size, later.size]; omega, fun other follows => ?_⟩
        rw [List.append_assoc]
        refine build _ ?_ ?_
        · have again := first.again _ (follows.front (run.stops follows.stops.simple).name)
          unfold typeSelector
          rw [if_neg (by simpa using star), if_pos (starts _), again]
          rfl
        · rw [Scan.map_size, first.size, List.drop_left]
          exact later.again other (follows.tail _)
      · obtain rfl := Except.ok.inj typed
        obtain ⟨front, rest, rfl, run, later⟩ := simples_local read
        rcases run with rfl | ⟨c, tail, rfl, begins⟩
        · -- nothing was read, but a compound is not empty
          have none := later.again [] ⟨.nil, fun mem => by cases mem⟩
          rw [List.append_nil, simples] at none
          obtain rfl := Except.ok.inj none
          exact absurd rfl some
        · refine ⟨c :: tail, rest, rfl, ⟨c, tail, rfl, by simp [extendsCompound, begins]⟩, by simp [later.size],
            fun other follows => ?_⟩
          exact build _ (typeSelector_none begins pos) (later.again other follows)

end StyleAudit.Selector
