import StyleAudit.Proofs.ImportantDeclarations
import StyleAudit.Proofs.SelectorSegments
/-!
Parts of rules with their white space cut down. The selectors, the text of a prelude and the declaration that are read from the
tokens of a compact text are those that were read from the tokens the text is of.
-/
namespace StyleAudit.Css

open Node (listTokens listTokens_append)

/-- Closed nodes whose tokens are those of other nodes with their white space cut down. -/
structure Tightens (around : Option Bracket) (ns ms : List Node) : Prop where
  nested : Node.AreNested around false ms
  tokens : (listTokens ms).map Token.piece = tightened .comma ((listTokens ns).map Token.piece)
  sifts : Sifts ns ms
  first : ∀ m ∈ ms.head?, m.kind? ≠ some .whitespace
  ends : EndsVisibly ns → EndsVisibly ms

theorem exists_tightens {around : Option Bracket} {ns : List Node} (nested : Node.AreNested around false ns) :
    ∃ ms, Tightens around ns ms := by
  have cut := pieces_placed {} (tightened .comma ((listTokens ns).map Token.piece))
  obtain ⟨ms, same, closed, sifts, first, ends, -⟩ := exists_reread nested cut
  exact ⟨ms, closed, same ▸ cut, sifts, first, ends⟩

section
variable {around : Option Bracket} {ns ms : List Node} {rest : List Char} (h : Tightens around ns ms)
include h

theorem Tightens.compactText (row : InRow ((listTokens ns).map Token.piece) rest) :
    compactText (listTokens ms) = compactText (listTokens ns) := compactFrom_cut row h.tokens fun _ => .inl rfl

theorem Tightens.textOf (row : InRow ((listTokens ns).map Token.piece) rest) : textOf ms.reverse = textOf ns.reverse := by
  rw [Css.textOf, Css.textOf, List.reverse_reverse, List.reverse_reverse, h.compactText row]

end

/-! Selectors. -/

/-- The texts of selectors with commas between them are the text of their tokens. -/
theorem intercalate_splitSelectors (depth : Nat) {ts : List Token} (marks : ∀ t ∈ ts, t.kind = .comma → t.lexeme = [',']) :
    [','].intercalate ((splitSelectors depth ts).map compactText) = compactText ts := by
  induction size : ts.length using Nat.strongRecOn generalizing depth ts with
  | _ n ih =>
    rcases splitSelectors_first depth ts with last | ⟨first, comma, rest, rfl, kind, split⟩
    · rw [last]
      exact List.intercalate_singleton
    · have later := ih rest.length (by rw [← size]; simp only [List.length_append, List.length_cons]; omega) 0
        (fun t ht => marks t (by simp [ht])) rfl
      obtain ⟨second, more, split'⟩ := List.exists_cons_of_ne_nil (splitSelectors_ne_nil 0 rest)
      rw [split'] at later
      have whole : compactText (first ++ comma :: rest) = compactText first ++ ',' :: compactText rest :=
        compactFrom_comma kind (marks comma (by simp) kind) first rest none false
      rw [split, split', List.map_cons, List.map_cons, List.intercalate_cons_cons, ← List.map_cons, later, whole,
        List.append_assoc, List.singleton_append]

/-- White space belongs to the selector that goes on behind it. -/
theorem splitSelectors_blank {w : Token} (blank : w.kind = .whitespace) (depth : Nat) (ts : List Token) :
    splitSelectors depth (w :: ts) = (splitSelectors depth ts).modifyHead (w :: ·) := by
  rw [splitSelectors_cons (by simp [blank]), blank]
  rfl

/-- The first selector begins like the tokens, or it ends at once, in front of a comma or at the end. -/
theorem head?_splitSelectors {depth : Nat} {ts s : List Token} {more : List (List Token)}
    (split : splitSelectors depth ts = s :: more) :
    ((s.map Token.piece).head?.map Piece.kind).getD .comma = ((ts.map Token.piece).head?.map Piece.kind).getD .comma := by
  cases ts with
  | nil =>
      obtain ⟨rfl, -⟩ := List.cons.inj split
      rfl
  | cons t ts =>
      by_cases comma : t.kind = .comma ∧ depth = 0
      · rw [splitSelectors, if_pos comma] at split
        obtain ⟨rfl, -⟩ := List.cons.inj split
        exact comma.1.symm
      · obtain ⟨first, rest, inner⟩ := List.exists_cons_of_ne_nil (splitSelectors_ne_nil
          (if t.kind.opensBlock then depth + 1 else if t.kind.closesBlock then depth - 1 else depth) ts)
        rw [splitSelectors_cons comma, inner, List.modifyHead_cons] at split
        obtain ⟨rfl, -⟩ := List.cons.inj split
        rfl

/-- Tokens that are cut down from others. -/
def IsCut (previous : TokenKind) (us ts : List Token) : Prop := us.map Token.piece = tightened previous (ts.map Token.piece)

/-- Each selector of tokens that are cut down is cut down itself. -/
theorem splitSelectors_cut {ts us : List Token} {previous : TokenKind} (depth : Nat) (cut : IsCut previous us ts) :
    ∃ s s' more more', splitSelectors depth ts = s :: more ∧ splitSelectors depth us = s' :: more' ∧ IsCut previous s' s ∧
      List.Forall₂ (IsCut .comma) more' more := by
  induction ts generalizing depth us previous with
  | nil =>
      obtain rfl := List.map_eq_nil_iff.mp cut
      exact ⟨[], [], [], [], rfl, rfl, rfl, .nil⟩
  | cons t ts ih =>
      rw [IsCut, List.map_cons] at cut
      by_cases blank : t.kind = .whitespace
      · rw [tightened, if_pos (show t.piece.kind = _ from blank)] at cut
        split at cut
        · next gone =>
            obtain ⟨s, s', more, more', split, split', first, later⟩ := ih depth cut
            refine ⟨t :: s, s', more, more', by rw [splitSelectors_blank blank, split]; rfl, split', ?_, later⟩
            rw [← head?_splitSelectors split] at gone
            rw [IsCut, List.map_cons, tightened, if_pos (show t.piece.kind = _ from blank), if_pos gone]
            exact first
        · next kept =>
            obtain ⟨w, us, rfl, space, cut⟩ := List.map_eq_cons_iff.mp cut
            obtain ⟨s, s', more, more', split, split', first, later⟩ := ih depth cut
            refine ⟨t :: s, w :: s', more, more', by rw [splitSelectors_blank blank, split]; rfl,
              by rw [splitSelectors_blank (congrArg Piece.kind space), split']; rfl, ?_, later⟩
            rw [← head?_splitSelectors split] at kept
            rw [IsCut, List.map_cons, List.map_cons, tightened, if_pos (show t.piece.kind = _ from blank), if_neg kept, space]
            exact congrArg _ first
      · rw [tightened_visible (p := t.piece) blank] at cut
        obtain ⟨u, us, rfl, same, cut⟩ := List.map_eq_cons_iff.mp cut
        have kind : u.kind = t.kind := congrArg Piece.kind same
        by_cases comma : t.kind = .comma ∧ depth = 0
        · obtain ⟨s, s', more, more', split, split', first, later⟩ := ih 0 cut
          rw [show t.piece.kind = .comma from comma.1] at first
          refine ⟨[], [], s :: more, s' :: more', ?_, ?_, rfl, .cons first later⟩
          · rw [splitSelectors, if_pos comma, split]
          · rw [splitSelectors, if_pos (by rwa [kind]), split']
        · obtain ⟨s, s', more, more', split, split', first, later⟩ := ih _ cut
          refine ⟨t :: s, u :: s', more, more', ?_, ?_, ?_, later⟩
          · rw [splitSelectors_cons comma, split]
            rfl
          · rw [splitSelectors_cons (by rwa [kind]), kind, split']
            rfl
          rw [IsCut, List.map_cons, List.map_cons, tightened_visible (p := t.piece) blank, same]
          exact congrArg _ first

/-- The selectors are runs of the tokens. -/
theorem infix_splitSelectors {depth : Nat} {ts s : List Token} (h : s ∈ splitSelectors depth ts) : s <:+: ts := by
  induction size : ts.length using Nat.strongRecOn generalizing depth ts with
  | _ n ih =>
    rcases splitSelectors_first depth ts with last | ⟨first, comma, rest, rfl, kind, split⟩
    · rw [last] at h
      exact List.mem_singleton.mp h ▸ List.infix_rfl
    · rw [split] at h
      rcases List.mem_cons.mp h with rfl | later
      · exact (List.prefix_append s _).isInfix
      · have part := ih rest.length (by rw [← size]; simp only [List.length_append, List.length_cons]; omega) later rfl
        exact part.trans ((List.suffix_cons comma rest).isInfix.trans (List.suffix_append first _).isInfix)

theorem exists_inRow_infix {ps qs : List Piece} {rest : List Char} (row : InRow ps rest) (part : qs <:+: ps) :
    ∃ behind, InRow qs behind := by
  obtain ⟨before, after, rfl⟩ := part
  exact ⟨_, (inRow_append.mp (inRow_append.mp row).1).2⟩

theorem Tightens.selectors {around : Option Bracket} {ns ms : List Node} {rest : List Char} (h : Tightens around ns ms)
    (row : InRow ((listTokens ns).map Token.piece) rest) (line : Nat) :
    selectors line ms.reverse = selectors line ns.reverse := by
  obtain ⟨s, s', more, more', split, split', first, later⟩ := splitSelectors_cut 0 h.tokens
  have cut : List.Forall₂ (IsCut .comma) (splitSelectors 0 (listTokens ms)) (splitSelectors 0 (listTokens ns)) := by
    rw [split, split']
    exact .cons first later
  have texts : List.Forall₂ (fun us ts => Css.compactText us = Css.compactText ts) (splitSelectors 0 (listTokens ms))
      (splitSelectors 0 (listTokens ns)) := by
    refine List.forall₂_iff_get.mpr ⟨cut.length_eq, fun i hi hi' => ?_⟩
    obtain ⟨behind, rows⟩ := exists_inRow_infix row ((infix_splitSelectors (List.getElem_mem hi')).map Token.piece)
    exact compactFrom_cut rows (cut.get hi hi') fun _ => .inl rfl
  have same : (splitSelectors 0 (listTokens ms)).map (fun ts => String.ofList (Css.compactText ts)) =
      (splitSelectors 0 (listTokens ns)).map fun ts => String.ofList (Css.compactText ts) := by
    rw [← List.forall₂_eq_eq_eq, List.forall₂_map_left_iff, List.forall₂_map_right_iff]
    exact texts.imp fun _ _ => congrArg String.ofList
  rw [Css.selectors, Css.selectors, List.reverse_reverse, List.reverse_reverse, same]

/-- Selectors of which none is empty, with commas between them, are the text of their tokens. -/
theorem intercalate_selectors {ns : List Node} {rest : List Char} (row : InRow ((listTokens ns).map Token.piece) rest) {line : Nat}
    (silent : (selectors line ns.reverse).issues = []) :
    (",".intercalate (selectors line ns.reverse).items).toList = compactText (listTokens ns) := by
  have marks : ∀ t ∈ listTokens ns, t.kind = .comma → t.lexeme = [','] := fun t ht comma => by
    obtain ⟨behind, read⟩ := row.isRead (List.mem_map_of_mem ht)
    exact read.comma comma
  rw [← intercalate_splitSelectors 0 marks]
  simp only [selectors, List.reverse_reverse] at silent ⊢
  split at silent
  · next all =>
      have texts : String.toList ∘ (fun ts => String.ofList (compactText ts)) = compactText :=
        funext fun _ => String.toList_ofList
      rw [List.filter_eq_self.mpr (List.length_filter_eq_length_iff.mp all), String.toList_intercalate, List.map_map, texts]
      rfl
  · cases silent

/-! Declarations. -/

theorem kinds_blank {ts : List Token} (h : AreBlank ts) :
    ((ts.map Node.leaf).map Node.kind?).filter (· ≠ some .whitespace) = [] := by
  refine List.filter_eq_nil_iff.mpr fun kind hk => ?_
  obtain ⟨n, hn, rfl⟩ := List.mem_map.mp hk
  simpa using h.leaves n hn

/-- White space aside, a value with a mark ends in an exclamation mark and a word. -/
theorem isSome_beforeImportant {value : List Node} :
    (beforeImportant (ComponentValue.ofNodes value.reverse)).isSome = true ↔
      ∃ front word, (value.map Node.kind?).filter (· ≠ some .whitespace) =
        front ++ [some (.delim '!'), some (.ident word)] ∧ word.toLower = "important" := by
  constructor
  · intro marked
    obtain ⟨values, marked⟩ := Option.isSome_iff_exists.mp marked
    obtain ⟨front, m, tail, rfl, written, blank, -⟩ := exists_mark marked
    obtain ⟨word, kind, spelled⟩ := written.word
    refine ⟨(front.map Node.kind?).filter (· ≠ some .whitespace), word, ?_, spelled⟩
    simp only [Mark.tokens, List.map_append, List.map_cons, List.filter_append, kinds_blank written.before, kinds_blank blank,
      kinds_blank written.gap, Node.kind?, written.bang, kind, List.filter_cons, List.append_nil, List.nil_append]
    simp
  · rintro ⟨front, word, kinds, spelled⟩
    obtain ⟨_, _, split, -, behind⟩ := List.filter_eq_append_iff.mp kinds
    obtain ⟨ahead, _, rfl, rfl, rfl⟩ := List.map_eq_append_iff.mp split
    obtain ⟨_, _, split₁, ahead₁, -, behind₁⟩ := List.filter_eq_cons_iff.mp behind
    obtain ⟨_, _, split₃, ahead₂, -, behind₂⟩ := List.filter_eq_cons_iff.mp behind₁
    obtain ⟨_, _, rfl, rfl, split₂⟩ := List.map_eq_append_iff.mp split₁
    obtain ⟨bang, _, rfl, bang', rfl⟩ := List.map_eq_cons_iff.mp split₂
    obtain ⟨_, _, rfl, rfl, split₄⟩ := List.map_eq_append_iff.mp split₃
    obtain ⟨last, _, rfl, last', rfl⟩ := List.map_eq_cons_iff.mp split₄
    have white {ns : List Node} (h : ∀ kind ∈ ns.map Node.kind?, ¬ decide (kind ≠ some .whitespace) = true) : Clause.Blank ns :=
      fun n hn => by simpa using h _ (List.mem_map_of_mem hn)
    obtain ⟨before, rfl, blank⟩ := leaves_of_blank (white ahead₁)
    obtain ⟨gap, rfl, blank'⟩ := leaves_of_blank (white ahead₂)
    obtain ⟨tail, rfl, tail'⟩ := leaves_of_blank (white (List.filter_eq_nil_iff.mp behind₂))
    obtain ⟨bang, rfl, mark⟩ := leaf_of_kind? bang'
    obtain ⟨last, rfl, ident⟩ := leaf_of_kind? last'
    let m : Mark := ⟨before, bang, gap, last⟩
    have written : m.IsWritten := ⟨blank, mark, blank', word, ident, spelled⟩
    have marked : beforeImportant (ComponentValue.ofNodes (ahead ++ (m.tokens ++ tail).map Node.leaf).reverse) = _ :=
      beforeImportant_marked written tail'
    simp only [m, Mark.tokens, List.map_append, List.map_cons, List.append_assoc, List.cons_append, List.nil_append] at marked
    rw [marked]
    rfl

/-- White space tells nothing about a mark. -/
theorem Sifts.isSome_beforeImportant {ns ms : List Node} (h : Sifts ns ms) :
    (beforeImportant (ComponentValue.ofNodes ms.reverse)).isSome = (beforeImportant (ComponentValue.ofNodes ns.reverse)).isSome := by
  rw [Bool.eq_iff_iff, Css.isSome_beforeImportant, Css.isSome_beforeImportant, h.kinds]

/-- What is kept of a declaration but for its line, and for the white space in its value that the text does not keep. -/
def Declaration.shown (d : Declaration) : Declaration := { d with value := [], line := 0 }

section
variable {around : Option Bracket} {ns ms : List Node} {rest : List Char} (h : Tightens around ns ms)
  (row : InRow ((listTokens ns).map Token.piece) rest) (ends : EndsVisibly ns) (name : String) (line line' : Nat)
include h row ends

theorem Tightens.declaration (none : beforeImportant (ComponentValue.ofNodes ns.reverse) = none) :
    (declaration name line' ms.reverse).shown = (declaration name line ns.reverse).shown := by
  have none' : beforeImportant (ComponentValue.ofNodes ms.reverse) = .none := by
    rw [← Option.isNone_iff_eq_none, ← Option.isSome_eq_false_iff, h.sifts.isSome_beforeImportant, none]
    rfl
  rw [declaration_unmarked name line ends none, declaration_unmarked name line' (h.ends ends) none', h.compactText row]
  rfl

theorem Tightens.marked {m m' : Mark} {tail tail' : List Token} (written : m.IsWritten) (spelled : m.IsSpelled)
    (blank : AreBlank tail) (written' : m'.IsWritten) (spelled' : m'.IsSpelled) (blank' : AreBlank tail') :
    (Css.declaration name line' (ms ++ (m'.tokens ++ tail').map Node.leaf).reverse).shown =
      (Css.declaration name line (ns ++ (m.tokens ++ tail).map Node.leaf).reverse).shown := by
  rw [declaration_marked name line written spelled blank ends,
    declaration_marked name line' written' spelled' blank' (h.ends ends), h.compactText row]
  rfl

end

end StyleAudit.Css
