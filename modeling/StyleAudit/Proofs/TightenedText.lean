import StyleAudit.Css.Reading
import StyleAudit.Proofs.TokenRows
/-!
Texts put together from tokens. White space between tokens may shrink to a space, and go altogether at the ends and next to
commas: the other tokens are read from what is left as they were read before.
-/
namespace StyleAudit.Css

open Text (Scan)

/-! White space cut down. -/

/-- Pieces with white space cut down to a space, and without white space at the ends and next to commas: the start and the
end count as commas. -/
def tightened (previous : TokenKind) : List Piece → List Piece
  | [] => []
  | p :: ps =>
    if p.kind = .whitespace then
      if previous = .comma ∨ (ps.head?.map Piece.kind).getD .comma = .comma then tightened previous ps
      else .space :: tightened .whitespace ps
    else p :: tightened p.kind ps

theorem tightened_visible {p : Piece} (visible : p.kind ≠ .whitespace) (previous : TokenKind) (ps : List Piece) :
    tightened previous (p :: ps) = p :: tightened p.kind ps := if_neg visible

theorem tightened_last {p : Piece} (blank : p.kind = .whitespace) (previous : TokenKind) : tightened previous [p] = [] := by
  rw [tightened, if_pos blank, if_pos (.inr rfl), tightened]

theorem tightened_blank {p : Piece} (blank : p.kind = .whitespace) (previous : TokenKind) (u : Piece) (us : List Piece) :
    tightened previous (p :: u :: us) =
      if previous = .comma ∨ u.kind = .comma then tightened previous (u :: us)
      else .space :: tightened .whitespace (u :: us) := if_pos blank

/-- The kinds of tokens without white space at the ends and next to commas. -/
def tightKinds (previous : TokenKind) : List TokenKind → List TokenKind
  | [] => []
  | k :: rest =>
    if k = .whitespace ∧ (previous = .comma ∨ rest.head?.getD .comma = .comma) then tightKinds previous rest
    else k :: tightKinds k rest

theorem kinds_tightened (previous : TokenKind) (ps : List Piece) :
    (tightened previous ps).map Piece.kind = tightKinds previous (ps.map Piece.kind) := by
  induction ps generalizing previous with
  | nil => rfl
  | cons p ps ih =>
      rw [tightened, List.map_cons, tightKinds, List.head?_map]
      by_cases blank : p.kind = .whitespace
      · rw [if_pos blank]
        split
        · next cut => rw [if_pos ⟨blank, cut⟩, ih]
        · next kept =>
            rw [if_neg fun both => kept both.2, List.map_cons, ih, blank]
            rfl
      · rw [if_neg blank, if_neg fun both => blank both.1, List.map_cons, ih]

/-! How far the white space behind a token matters to it. -/

theorem isBreak_comma : IsBreak ',' := ⟨⟨by decide, by decide⟩, by decide, by decide⟩

theorem isStop_space : IsStop ' ' := ⟨by decide, by decide⟩

theorem isStop_bang : IsStop '!' := ⟨by decide, by decide⟩

theorem isBreak_of_mem {c : Char} (h : c ∈ [';', '\x7b', '\x7d']) : IsBreak c ∧ c ≠ '>' ∧ c ∈ signs := by
  simp only [List.mem_cons, List.not_mem_nil, or_false] at h
  rcases h with rfl | rfl | rfl <;> exact ⟨⟨⟨by decide, by decide⟩, by decide, by decide⟩, by decide, by decide⟩

theorem yields_nil {other : List Char} (nonempty : other ≠ []) : Yields [] other :=
  ⟨nonempty, nofun, nofun, nofun, nofun, nofun, (by simp), by simp⟩

theorem Yields.refl {text : List Char} (nonempty : text ≠ []) : Yields text text :=
  ⟨nonempty, fun _ same => .inr (.inl same), id, id, id, id, id, id⟩

/-- A semicolon, a curly bracket, or an exclamation mark that opens no comment. -/
def StartsMark (text : List Char) : Prop :=
  ∃ c more, text = c :: more ∧ (c ∈ [';', '\x7b', '\x7d'] ∨ c = '!' ∧ ¬ ['-', '-'] <+: more)

/-- What tightened pieces begin with in the place of white space, of a comma or of the end. -/
inductive Shrinks (text other : List Char) : Prop
  | none : text = [] → Shrinks text other
  | mark : StartsMark text → Shrinks text other
  | comma {more : List Char} : text = ',' :: more → Shrinks text other
  | space {more : List Char} : text = ' ' :: more → startsSpace other = true → Shrinks text other

theorem Shrinks.stops {text other : List Char} (h : Shrinks text other) : Stops text := by
  cases h with
  | none same => subst same; exact nofun
  | mark mark =>
      obtain ⟨c, more, rfl, sign | ⟨rfl, -⟩⟩ := mark
      · obtain ⟨ends, angle, -⟩ := isBreak_of_mem sign
        exact ends.stops angle
      · rintro c ⟨⟩
        exact ⟨isStop_bang, by decide⟩
  | comma same => subst same; exact isBreak_comma.stops (by decide)
  | space same _ =>
      subst same
      rintro c ⟨⟩
      exact ⟨isStop_space, by decide⟩

theorem Shrinks.yields {text other : List Char} (h : Shrinks text other) (nonempty : other ≠ []) : Yields text other := by
  cases h with
  | none same => subst same; exact yields_nil nonempty
  | mark mark =>
      obtain ⟨c, more, rfl, sign | ⟨rfl, none⟩⟩ := mark
      · obtain ⟨ends, -, sign⟩ := isBreak_of_mem sign
        exact ends.yields _ nonempty (.inl sign)
      · exact isStop_bang.yields nonempty (.inl (by decide)) fun opens => none (List.cons_prefix_cons.mp opens).2
  | comma same => subst same; exact isBreak_comma.yields _ nonempty (.inl (by decide))
  | space same space =>
      subst same
      exact isStop_space.yields nonempty (.inr (.inr ⟨rfl, space⟩)) fun opens => by cases (List.cons_prefix_cons.mp opens).1

/-- What may be put behind tightened pieces in the place of a text. -/
def Closes (after rest : List Char) : Prop := after = [] ∨ StartsMark after ∧ rest ≠ []

theorem Closes.shrinks {after rest : List Char} (h : Closes after rest) (other : List Char) : Shrinks after other :=
  h.elim .none fun mark => .mark mark.1

section
variable {ps : List Piece} {after rest : List Char}

theorem shrinks_tightened (row : InRow ps rest) (closes : Closes after rest)
    (ends : ∀ p ∈ ps.head?, p.kind = .whitespace ∨ p.kind = .comma) {previous : TokenKind} (other : previous ≠ .comma) :
    Shrinks (spelling (tightened previous ps) ++ after) (spelling ps ++ rest) := by
  have mark {u : Piece} {us : List Piece} (row : InRow (u :: us) rest) (comma : u.kind = .comma) (k : TokenKind) :
      spelling (tightened k (u :: us)) = ',' :: spelling (tightened u.kind us) := by
    rw [tightened_visible (by rw [comma]; decide), spelling_cons, row.1.comma comma]
    rfl
  match ps with
  | [] => exact closes.shrinks _
  | p :: ps =>
      rcases ends p rfl with blank | comma
      · match ps with
        | [] =>
            rw [tightened_last blank]
            exact closes.shrinks _
        | u :: us =>
            rw [tightened_blank blank]
            by_cases comma : u.kind = .comma
            · rw [if_pos (.inr comma), mark row.2 comma]
              exact .comma rfl
            · rw [if_neg (not_or.mpr ⟨other, comma⟩), spelling_cons]
              obtain ⟨c, more, same, space⟩ := row.1.head
              refine .space rfl ?_
              rw [spelling_cons, same]
              exact space.mp blank
      · rw [mark row comma]
        exact .comma rfl

/-- A backslash in front of something that it does not escape is a token of its own. -/
theorem escapable_backslash (row : InRow ps rest) (backslash : ∀ p ∈ ps, p.kind ≠ .delim '\\') (some : rest ≠ [])
    (slash : spelling ps = ['\\']) : escapable rest = true := by
  match ps with
  | [] => cases slash
  | p :: ps =>
      obtain ⟨first, -⟩ := row
      obtain ⟨c, more, same, -⟩ := first.head
      rw [spelling_cons, same, List.cons_append, List.cons.injEq, List.append_eq_nil_iff] at slash
      obtain ⟨rfl, rfl, behind⟩ := slash
      rw [behind, List.nil_append] at first
      by_contra alone
      have read := first.size some same
      rw [List.nil_append, token_backslash (Bool.eq_false_iff.mpr alone)] at read
      exact backslash p List.mem_cons_self (congrArg Scan.value read).symm

theorem escapable_row (row : InRow ps rest) (backslash : ∀ p ∈ ps, p.kind ≠ .delim '\\') (some : rest ≠ [])
    (slash : spelling ps = ['\\'] ∨ spelling ps = ['-', '\\']) : escapable rest = true := by
  rcases slash with slash | slash
  · exact escapable_backslash row backslash some slash
  · match ps with
    | [] => cases slash
    | p :: ps =>
        obtain ⟨first, later⟩ := row
        obtain ⟨c, more, same, -⟩ := first.head
        rw [spelling_cons, same, List.cons_append, List.cons.injEq] at slash
        obtain ⟨rfl, slash⟩ := slash
        by_contra alone
        -- the hyphen in front of such a backslash begins no name either
        have read := first.size (List.append_ne_nil_of_right_ne_nil _ some) same
        rw [← List.append_assoc, slash, List.singleton_append, token_dash_backslash (Bool.eq_false_iff.mpr alone)] at read
        have length : 1 = 1 + more.length := congrArg Scan.size read
        obtain rfl : more = [] := List.length_eq_zero_iff.mp (by omega)
        exact alone (escapable_backslash later (fun q mem => backslash q (List.mem_cons_of_mem p mem)) some slash)

theorem exists_tail (ps : List Piece) {previous : TokenKind} (other : previous ≠ .comma) :
    ∃ run tail k, ps = run ++ tail ∧ k ≠ .comma ∧ (∀ p ∈ tail.head?, p.kind = .whitespace ∨ p.kind = .comma) ∧
      tightened previous ps = run ++ tightened k tail := by
  induction ps generalizing previous with
  | nil => exact ⟨[], [], previous, rfl, other, nofun, rfl⟩
  | cons p ps ih =>
      by_cases ends : p.kind = .whitespace ∨ p.kind = .comma
      · refine ⟨[], p :: ps, previous, rfl, other, ?_, rfl⟩
        rintro q ⟨⟩
        exact ends
      · rw [not_or] at ends
        obtain ⟨run, tail, k, same, comma, head, tight⟩ := ih ends.2
        exact ⟨p :: run, tail, k, by rw [same]; rfl, comma, head, by rw [tightened_visible ends.1, tight]; rfl⟩

/-- Tightened pieces begin with nothing that the pieces do not begin with, as far as a token in front of them is
concerned. -/
theorem yields_tightened (row : InRow ps rest) (closes : Closes after rest) (backslash : ∀ p ∈ ps, p.kind ≠ .delim '\\')
    {previous : TokenKind} (other : previous ≠ .comma) (some : spelling ps ++ rest ≠ []) :
    Yields (spelling (tightened previous ps) ++ after) (spelling ps ++ rest) := by
  obtain ⟨run, tail, k, rfl, comma, head, tight⟩ := exists_tail ps other
  obtain ⟨row, behind⟩ := inRow_append.mp row
  have shrinks := shrinks_tightened behind closes head comma
  rw [tight, spelling_append, spelling_append, List.append_assoc, List.append_assoc] at *
  by_cases none : spelling run = []
  · rw [none] at some ⊢
    exact shrinks.yields some
  · by_cases last : spelling tail ++ rest = []
    · -- nothing stands behind the run, and nothing is cut
      obtain rfl : tail = [] := by
        cases tail with
        | nil => rfl
        | cons p tail => exact absurd (List.append_eq_nil_iff.mp (List.append_eq_nil_iff.mp last).1).1 behind.1.nonempty
      have stop : rest = [] := last
      obtain rfl := closes.resolve_right fun mark => mark.2 stop
      rw [stop]
      exact .refl (List.append_ne_nil_of_left_ne_nil none _)
    · exact yields_behind shrinks.stops none last
        (escapable_row row (fun p mem => backslash p (List.mem_append_left _ mem)) last)

/-- What may stand behind tokens that make up a text: no quote, and no white space with a quote behind it. -/
def EndsText (rest : List Char) : Prop := ∀ c, (rest.dropWhile isSpace).head? = some c → c ≠ '"' ∧ c ≠ '\''

theorem dropWhile_of_startsSpace {text : List Char} (h : startsSpace text = false) : text.dropWhile isSpace = text := by
  cases text with
  | nil => rfl
  | cons c text =>
      have visible : isSpace c = false := h
      exact List.dropWhile_cons_of_neg (Bool.eq_false_iff.mp visible)

theorem Piece.IsRead.dropWhile {p : Piece} (h : p.IsRead rest) (visible : p.kind ≠ .whitespace) (behind : List Char) :
    (p.lexeme ++ behind).dropWhile isSpace = p.lexeme ++ behind := by
  obtain ⟨c, more, same, space⟩ := h.head
  rw [same, List.cons_append, List.dropWhile_cons_of_neg fun blank => visible (space.mpr blank)]

/-- A text ends in front of what is neither white space nor a string. -/
theorem Piece.IsRead.endsText {p : Piece} (h : p.IsRead rest) (visible : p.kind ≠ .whitespace)
    (text : ∀ value, p.kind ≠ .string value) (bad : p.kind ≠ .badString) (behind : List Char) :
    EndsText (p.lexeme ++ behind) := by
  intro c first
  obtain ⟨d, more, same, value, -⟩ := h.token
  rw [h.dropWhile visible, same] at first
  obtain rfl := Option.some.inj first
  have quote : ¬ (d = '"' ∨ d = '\'') := by
    intro quote
    rw [token_quote quote] at value
    rcases stringToken_value d (more ++ rest) with ⟨string, same⟩ | same
    · exact text string (value.symm.trans same)
    · exact bad (value.symm.trans same)
  exact not_or.mp quote

/-- There may be white space in front of it. -/
theorem endsText_of_tokens {place : Place} {text : List Char} {before more : List Token} {t : Token}
    (tokens : tokensFrom place text = before ++ t :: more) (later : more ≠ []) (blank : ∀ w ∈ before, w.kind = .whitespace)
    (visible : t.kind ≠ .whitespace) (string : ∀ value, t.kind ≠ .string value) (bad : t.kind ≠ .badString) :
    EndsText text := by
  induction before generalizing place text with
  | nil =>
      obtain ⟨rest, whole, -, read, -⟩ := tokensFrom_cons tokens later
      rcases slash_or_bare text with ⟨rest, rfl⟩ | bare
      · rintro c ⟨⟩
        decide
      · rw [bare] at whole
        rw [whole]
        exact read.endsText visible string bad rest
  | cons w before ih =>
      obtain ⟨rest, whole, -, read, same⟩ := tokensFrom_cons tokens (by simp)
      rcases slash_or_bare text with ⟨rest, rfl⟩ | bare
      · rintro c ⟨⟩
        decide
      · have ends := ih same.symm fun v hv => blank v (List.mem_cons_of_mem w hv)
        obtain ⟨skipped, none⟩ := read.blank (blank w List.mem_cons_self)
        rw [bare] at whole
        intro c first
        have whole : text = w.piece.lexeme ++ rest := whole
        rw [whole, skipped, ← dropWhile_of_startsSpace none] at first
        exact ends c first

/-- The first character past the white space stays. -/
theorem visible_tightened (row : InRow ps rest) (previous : TokenKind) (after : List Char) :
    ((spelling (tightened previous ps) ++ after).dropWhile isSpace).head? =
        ((spelling ps ++ rest).dropWhile isSpace).head? ∨
      (spelling ps ++ rest).dropWhile isSpace = rest.dropWhile isSpace := by
  have first {u : Piece} {us : List Piece} (row : InRow (u :: us) rest) (visible : u.kind ≠ .whitespace) (k : TokenKind) :
      ((spelling (tightened k (u :: us)) ++ after).dropWhile isSpace).head? = (spelling (u :: us) ++ rest).head? := by
    rw [tightened_visible visible, spelling_cons, spelling_cons, List.append_assoc, List.append_assoc,
      row.1.dropWhile visible, List.head?_append_of_ne_nil _ row.1.nonempty, List.head?_append_of_ne_nil _ row.1.nonempty]
  match ps with
  | [] => exact .inr rfl
  | p :: ps =>
      by_cases blank : p.kind = .whitespace
      · have skipped := (row.1.blank blank).1
        rw [spelling_cons, List.append_assoc]
        match ps with
        | [] =>
            right
            rw [skipped]
            exact (dropWhile_of_startsSpace (row.1.blank blank).2).symm
        | u :: us =>
            left
            have visible := row.visible blank
            rw [skipped, tightened_blank blank]
            split
            · exact first row.2 visible previous
            · rw [spelling_cons]
              exact first row.2 visible .whitespace
      · left
        have same := row.1.dropWhile blank (spelling ps ++ rest)
        rw [first row blank, spelling_cons, List.append_assoc, same]

/-- A token is read from tightened pieces as before. -/
theorem Piece.IsRead.again {p : Piece} (row : InRow (p :: ps) rest) (ends : EndsText rest) (closes : Closes after rest)
    (sound : ∀ q ∈ p :: ps, q.kind ≠ .badString ∧ q.kind ≠ .delim '\\') :
    p.IsRead (spelling (tightened p.kind ps) ++ after) := by
  obtain ⟨bad, slash⟩ := sound p List.mem_cons_self
  by_cases comma : p.kind = .comma
  · have mark := row.1.comma comma
    exact ⟨by rw [mark]; exact comments_of_first (by decide) _, ',', [], mark, comma.symm, by rw [mark]; rfl⟩
  by_cases none : spelling ps ++ rest = []
  · obtain rfl : ps = [] := by
      cases ps with
      | nil => rfl
      | cons q ps => exact absurd (List.append_eq_nil_iff.mp (List.append_eq_nil_iff.mp none).1).1 row.2.1.nonempty
    have last := row.1
    obtain rfl := closes.resolve_right fun mark => mark.2 (List.append_eq_nil_iff.mp none).2
    rw [none] at last
    exact last
  have yields := yields_tightened row.2 closes (fun q mem => (sound q (List.mem_cons_of_mem p mem)).2) comma none
  obtain ⟨c, more, same, -⟩ := row.1.head
  have read := row.1.size none same
  have again : Css.token c (more ++ (spelling (tightened p.kind ps) ++ after)) =
      Css.token c (more ++ (spelling ps ++ rest)) := by
    apply yields.token
    · rw [read]
    · rw [read]
      exact fun either => (either.elim bad slash).elim
    · intro name function url
      obtain ⟨quote, first, mark⟩ := address_quoted (by rw [read]) function url
      refine (visible_tightened row.2 p.kind after).resolve_right fun skipped => ?_
      -- behind the function stands its address, and no text ends in front of that
      rw [skipped] at first
      obtain ⟨double, single⟩ := ends quote first
      exact mark.elim double single
  have bare := row.1.uncommented
  rw [same] at bare
  refine ⟨by rw [same]; exact yields.comments bare, c, more, same, by rw [again, read], ?_⟩
  rw [again, read, same, Nat.add_comm, List.cons_append, List.take_succ_cons, List.take_left]

theorem inRow_tightened (row : InRow ps rest) (ends : EndsText rest) (closes : Closes after rest)
    (sound : ∀ q ∈ ps, q.kind ≠ .badString ∧ q.kind ≠ .delim '\\') (previous : TokenKind) :
    InRow (tightened previous ps) after := by
  induction ps generalizing previous with
  | nil => trivial
  | cons p ps ih =>
      have later := ih row.2 fun q mem => sound q (List.mem_cons_of_mem p mem)
      by_cases blank : p.kind = .whitespace
      · match ps with
        | [] => rw [tightened_last blank]; trivial
        | u :: us =>
            rw [tightened_blank blank]
            split
            · exact later previous
            · refine ⟨⟨comments_of_first (by decide) _, ' ', [], rfl, token_whitespace_iff.mpr rfl, ?_⟩, later .whitespace⟩
              obtain ⟨c, more, same, space⟩ := row.2.1.head
              have visible : isSpace c ≠ true := fun blank' => row.visible blank (space.mpr blank')
              rw [tightened_visible (row.visible blank), spelling_cons, same, List.nil_append, List.append_assoc,
                token_space rfl rfl, spaces, List.cons_append, List.takeWhile_cons_of_neg visible]
              rfl
      · rw [tightened_visible blank]
        exact ⟨.again row ends closes sound, later p.kind⟩

end

/-! The text of tokens. -/

/-- Tokens whose text shows what white space sets apart: no backslash stands by itself, and no name that ends in a comma,
an escaped one, has white space between itself and something other than a comma. -/
structure IsDistinct (ts : List Token) : Prop where
  backslash : ∀ t ∈ ts, t.kind ≠ .delim '\\'
  comma : ∀ t w u, [t, w, u] <:+: ts → t.lexeme.getLast? = some ',' → w.kind = .whitespace → t.kind = .comma ∨ u.kind = .comma

theorem IsDistinct.tail {t : Token} {ts : List Token} (h : IsDistinct (t :: ts)) : IsDistinct ts where
  backslash u mem := h.backslash u (List.mem_cons_of_mem t mem)
  comma s w u part := h.comma s w u (List.infix_cons part)

theorem compactFrom_visible {t : Token} (visible : t.kind ≠ .whitespace) (last : Option Char) (space : Bool) (us : List Token) :
    compactFrom last space (t :: us) =
      (if (space && last.isSome && last != some ',' && t.kind != .comma) = true then [' '] else []) ++ t.lexeme ++
        compactFrom (t.lexeme.getLast?.or last) false us := by
  rw [compactFrom, if_neg visible]

/-- The last character of a token shows whether white space behind it goes. -/
theorem IsDistinct.shown {t w u : Token} {us : List Token} {rest : List Char} {last : Option Char}
    (h : IsDistinct (t :: w :: u :: us)) (read : t.piece.IsRead rest) (blank : w.kind = .whitespace) (other : u.kind ≠ .comma) :
    ((t.lexeme.getLast?.or last).isSome && t.lexeme.getLast?.or last != some ',') = true ↔ t.kind ≠ .comma := by
  have nonempty : t.lexeme ≠ [] := read.nonempty
  obtain ⟨d, final⟩ := Option.ne_none_iff_exists'.mp (mt List.getLast?_eq_none_iff.mp nonempty)
  rw [final, Option.some_or]
  constructor
  · intro shown comma
    have mark : t.lexeme = [','] := read.comma comma
    rw [mark] at final
    obtain rfl := Option.some.inj final
    cases shown
  · intro comma
    have free : d ≠ ',' := by
      rintro rfl
      exact (h.comma t w u ⟨[], us, rfl⟩ final blank).elim comma other
    simp [free]

/-- The text of tokens is that of their pieces, cut down. -/
theorem compactFrom_tightened {ts : List Token} {rest : List Char} (row : InRow (ts.map Token.piece) rest)
    (distinct : IsDistinct ts) {last : Option Char} {previous : TokenKind}
    (shown : ∀ w u us, ts = w :: u :: us → w.kind = .whitespace → u.kind ≠ .comma →
      ((last.isSome && last != some ',') = true ↔ previous ≠ .comma)) :
    compactFrom last false ts = spelling (tightened previous (ts.map Token.piece)) := by
  induction size : ts.length using Nat.strong_induction_on generalizing ts last previous with
  | _ n ih =>
    -- behind a token it is the token itself that shows what white space there comes to
    have later {u : Token} {us : List Token} (row : InRow ((u :: us).map Token.piece) rest) (distinct : IsDistinct (u :: us))
        (short : us.length < n) (last : Option Char) :
        compactFrom (u.lexeme.getLast?.or last) false us = spelling (tightened u.kind (us.map Token.piece)) := by
      refine ih us.length short row.2 distinct.tail ?_ rfl
      rintro w v vs rfl blank other
      exact distinct.shown row.1 blank other
    cases ts with
    | nil => rfl
    | cons t ts =>
        by_cases blank : t.kind = .whitespace
        · rw [compactFrom, if_pos blank]
          cases ts with
          | nil =>
              rw [List.map_singleton, tightened_last blank]
              rfl
          | cons u us =>
              have visible : u.kind ≠ .whitespace := row.visible blank
              have behind := later row.2 distinct.tail (by rw [← size]; simp only [List.length_cons]; omega) last
              have kept (k : TokenKind) : spelling (tightened k (u.piece :: us.map Token.piece)) =
                  u.lexeme ++ spelling (tightened u.kind (us.map Token.piece)) := by
                rw [tightened_visible visible, spelling_cons]
                rfl
              have tight := tightened_blank (p := t.piece) blank previous u.piece (us.map Token.piece)
              rw [compactFrom_visible visible, Bool.true_and, behind, List.map_cons, List.map_cons, tight]
              by_cases comma : u.kind = .comma
              · have next : previous = .comma ∨ u.piece.kind = .comma := .inr comma
                rw [if_pos next, kept, comma, bne_self_eq_false, Bool.and_false, if_neg Bool.false_ne_true]
                rfl
              · have gap := shown t u us rfl blank comma
                rw [bne_iff_ne.mpr comma, Bool.and_true]
                by_cases start : previous = .comma
                · have next : previous = .comma ∨ u.piece.kind = .comma := .inl start
                  rw [if_pos next, kept, if_neg fun open_ => gap.mp open_ start]
                  rfl
                · have next : ¬ (previous = .comma ∨ u.piece.kind = .comma) := not_or.mpr ⟨start, comma⟩
                  rw [if_neg next, spelling_cons, kept, if_pos (gap.mpr start)]
                  rfl
        · rw [compactFrom, if_neg blank, List.map_cons, tightened_visible blank, spelling_cons,
            later row distinct (by rw [← size, List.length_cons]; omega)]
          rfl

theorem compactText_tightened {ts : List Token} {rest : List Char} (row : InRow (ts.map Token.piece) rest)
    (distinct : IsDistinct ts) : compactText ts = spelling (tightened .comma (ts.map Token.piece)) := by
  refine compactFrom_tightened row distinct fun w u us _ _ _ => ?_
  simp

theorem IsDistinct.sound {ts : List Token} (h : IsDistinct ts) (whole : ∀ t ∈ ts, t.kind ≠ .badString) :
    ∀ p ∈ ts.map Token.piece, p.kind ≠ .badString ∧ p.kind ≠ .delim '\\' := by
  rintro p mem
  obtain ⟨t, ht, rfl⟩ := List.mem_map.mp mem
  exact ⟨whole t ht, h.backslash t ht⟩

/-- Cut down tokens have the text that they had before. -/
theorem compactFrom_cut {ts us : List Token} {rest : List Char} (row : InRow (ts.map Token.piece) rest) {last : Option Char}
    {previous : TokenKind} (cut : us.map Token.piece = tightened previous (ts.map Token.piece))
    (start : previous = .comma → last = none ∨ last = some ',') : compactFrom last false us = compactFrom last false ts := by
  induction size : ts.length using Nat.strong_induction_on generalizing ts us last previous with
  | _ n ih =>
    -- behind a token the text goes on as it does behind the same token in the other list
    have later {t : Token} {ts us : List Token} (row : InRow ((t :: ts).map Token.piece) rest) (short : ts.length < n)
        (visible : t.kind ≠ .whitespace) (last : Option Char) (space : Bool)
        (cut : us.map Token.piece = t.piece :: tightened t.kind (ts.map Token.piece)) :
        compactFrom last space us = compactFrom last space (t :: ts) := by
      obtain ⟨u, us, rfl, same, cut⟩ := List.map_eq_cons_iff.mp cut
      have kind : u.kind = t.kind := congrArg Piece.kind same
      have lexeme : u.lexeme = t.lexeme := congrArg Piece.lexeme same
      have behind : compactFrom (t.lexeme.getLast?.or last) false us = compactFrom (t.lexeme.getLast?.or last) false ts := by
        refine ih ts.length short row.2 cut (fun comma => ?_) rfl
        have mark : t.lexeme = [','] := row.1.comma comma
        rw [mark]
        exact .inr rfl
      rw [compactFrom_visible visible, compactFrom_visible (kind ▸ visible), kind, lexeme, behind]
    cases ts with
    | nil => rw [List.map_eq_nil_iff.mp cut]
    | cons t ts =>
        by_cases blank : t.kind = .whitespace
        · cases ts with
          | nil =>
              rw [List.map_singleton, tightened_last blank] at cut
              obtain rfl := List.map_eq_nil_iff.mp cut
              exact (if_pos blank).symm
          | cons u ts =>
              have visible : u.kind ≠ .whitespace := row.visible blank
              have short : ts.length < n := by rw [← size]; simp only [List.length_cons]; omega
              have kept (k : TokenKind) : tightened k ((u :: ts).map Token.piece) =
                  u.piece :: tightened u.kind (ts.map Token.piece) := tightened_visible visible k _
              rw [List.map_cons, List.map_cons, tightened_blank (p := t.piece) blank, ← List.map_cons, kept, kept] at cut
              rw [compactFrom, if_pos blank]
              split at cut
              · next next =>
                  rw [later row.2 short visible last false cut, compactFrom_visible visible, compactFrom_visible visible]
                  rcases next with comma | comma
                  · rcases start comma with rfl | rfl <;> rfl
                  · rw [show u.kind = .comma from comma, bne_self_eq_false, Bool.and_false, Bool.and_false]
              · obtain ⟨s, us, rfl, space, cut⟩ := List.map_eq_cons_iff.mp cut
                have white : s.kind = .whitespace := congrArg Piece.kind space
                rw [compactFrom, if_pos white, later row.2 short visible last true cut]
        · rw [List.map_cons, tightened_visible (p := t.piece) blank] at cut
          exact later row (by rw [← size, List.length_cons]; omega) blank last false cut

/-- The text of distinct tokens is read as the same tokens, with white space where they have it, except at the ends and next
to commas. -/
theorem kinds_compactText {ts : List Token} {rest : List Char} (row : InRow (ts.map Token.piece) rest) (ends : EndsText rest)
    (whole : ∀ t ∈ ts, t.kind ≠ .badString) (distinct : IsDistinct ts) (place : Place) :
    (tokensFrom place (compactText ts)).map Token.kind = tightKinds .comma (ts.map Token.kind) ++ [.endOfSource] := by
  rw [compactText_tightened row distinct, kinds_inRow (inRow_tightened row ends (.inl rfl) (distinct.sound whole) .comma),
    kinds_tightened, kinds_pieces]

end StyleAudit.Css
