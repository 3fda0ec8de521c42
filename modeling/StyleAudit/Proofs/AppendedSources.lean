import StyleAudit.Proofs.InsertedComments
import StyleAudit.Proofs.NestedNodes
import StyleAudit.Proofs.WrittenNodes
/-!
Sources behind one another. Where a source ends with the brace or semicolon that finishes a rule of the top level, nothing
is left open: what stands behind it is read as it is alone, on later lines, and the rules in front stay as they were.
-/
namespace StyleAudit.Css

/-- The rules and issues of the second style sheet behind those of the first. -/
instance : Append Stylesheet := ⟨fun s t => ⟨s.rules ++ t.rules, s.issues ++ t.issues⟩⟩

/-! Tokens in front of a break. -/

theorem isBreak_semicolon : IsBreak ';' := ⟨⟨by decide, by decide⟩, by decide, by decide⟩

theorem isBreak_brace : IsBreak '\x7d' := ⟨⟨by decide, by decide⟩, by decide, by decide⟩

/-- A character that is a token by itself, and with which no other token goes on. -/
structure IsMark (c : Char) (kind : TokenKind) : Prop where
  punctuation : punctuation? c = some kind
  break_ : IsBreak c
  angle : c ≠ '>'
  slash : c ≠ '/'

theorem isMark_semicolon : IsMark ';' .semicolon := ⟨rfl, isBreak_semicolon, by decide, by decide⟩

theorem isMark_brace : IsMark '\x7d' (.closing .curly) := ⟨rfl, isBreak_brace, by decide, by decide⟩

section
variable {mark : Char} {kind : TokenKind} (h : IsMark mark kind)
include h

theorem IsMark.tokensFrom (place : Place) (rest : List Char) :
    tokensFrom place (mark :: rest) = ⟨kind, place, [mark]⟩ :: Css.tokensFrom (place.after [mark]) rest := by
  have bare : comments (mark :: rest) = 0 := comments_of_first h.slash rest
  have first : (mark :: rest).drop (comments (mark :: rest)) = mark :: rest := by rw [bare, List.drop_zero]
  rw [tokensFrom_first first, bare, token_mark h.punctuation]
  rfl

/-- Behind a mark anything may follow: no token in front of the mark is read differently for it. -/
theorem IsMark.yields (front rest : List Char) : Yields (front ++ mark :: rest) (front ++ [mark]) := by
  by_cases some : front = []
  · subst some
    exact h.break_.yields rest (List.cons_ne_nil _ _) (.inr rfl)
  · refine yields_behind (h.break_.stops h.angle) some (List.cons_ne_nil _ _) fun _ => ?_
    have space := h.break_.space
    have feed : mark ≠ '\n' := by
      rintro rfl
      cases space
    exact bne_iff_ne.mpr feed

theorem IsMark.keepsReading (rest : List Char) (u : Token) (later : List Token) (t : Token) (vs : List Token) :
    KeepsReading [mark] (mark :: rest) u later t vs := by
  intro place text gap c more front first start
  have yields := h.yields front rest
  -- the mark follows both in the old text and in the new one, so that the next character is the same
  have head : (front ++ mark :: rest).head? = (front ++ [mark]).head? := by cases front <;> rfl
  have visible : isSpace mark = false := h.break_.space
  have next : ((front ++ mark :: rest).dropWhile isSpace).head? = ((front ++ [mark]).dropWhile isSpace).head? := by
    rw [List.dropWhile_append, List.dropWhile_append]
    split
    · simp [visible]
    · next some =>
        generalize front.dropWhile isSpace = left at some
        cases left with
        | nil => exact absurd rfl some
        | cons d left => rfl
  exact ⟨yields.token first.size (fun _ => head) (fun _ _ _ => next), yields.comments first.bare⟩

/-- Tokens of a source that ends with a mark are the same in front of any text. -/
theorem IsMark.tokensFrom_append {place : Place} {before : List Char} {us vs : List Token} {t : Token}
    (tokens : Css.tokensFrom place (before ++ [mark]) = us ++ t :: vs) (start : t.start = place.offset + before.length)
    (kept : t.kind ≠ .endOfSource) (rest : List Char) :
    Css.tokensFrom place (before ++ mark :: rest) = us ++ t :: Css.tokensFrom (place.after (before ++ [mark])) rest := by
  obtain ⟨new, old⟩ := tokensFrom_behind tokens start kept fun _ u later _ => h.keepsReading rest u later t vs
  rw [h.tokensFrom] at old
  obtain ⟨rfl, -⟩ := List.cons.inj old
  rw [new, h.tokensFrom, Place.after_append]

end

/-! Tokens behind a line feed. -/

theorem tokensFrom_space {c : Char} (space : isSpace c = true) (place : Place) (rest : List Char) :
    tokensFrom place (c :: rest) =
      ⟨.whitespace, place, c :: rest.takeWhile isSpace⟩ ::
        tokensFrom (place.after (c :: rest.takeWhile isSpace)) (rest.dropWhile isSpace) := by
  have mark : punctuation? c = none ∧ c ≠ '/' := by
    simp only [isSpace, Bool.or_eq_true, beq_iff_eq] at space
    rcases space with (rfl | rfl) | rfl <;> exact ⟨rfl, by decide⟩
  have bare := comments_of_first mark.2 rest
  have first : (c :: rest).drop (comments (c :: rest)) = c :: rest := by rw [bare, List.drop_zero]
  have whole : rest.takeWhile isSpace ++ rest.dropWhile isSpace = rest := List.takeWhile_append_dropWhile
  have lexeme : (c :: rest).take (1 + spaces rest) = c :: rest.takeWhile isSpace := by
    rw [Nat.add_comm, List.take_succ_cons, spaces]
    conv => lhs; arg 2; arg 2; rw [← whole]
    rw [List.take_left]
  have left : (c :: rest).drop (1 + spaces rest) = rest.dropWhile isSpace := by
    rw [Nat.add_comm, List.drop_succ_cons, spaces]
    conv => lhs; arg 2; rw [← whole]
    rw [List.drop_left]
  rw [tokensFrom_first first, bare, token_space mark.1 space, lexeme, left]
  rfl

/-- A line feed in front of a text is white space of its own, or more of the white space that the text begins with. -/
theorem tokensFrom_feed (place : Place) (text : List Char) :
    ∃ w ts, tokensFrom place ('\n' :: text) = w :: ts ∧ w.kind = .whitespace ∧
      (tokensFrom (place.after ['\n']) text = ts ∨
        ∃ w', tokensFrom (place.after ['\n']) text = w' :: ts ∧ w'.kind = .whitespace) := by
  refine ⟨_, _, tokensFrom_space (by decide) place text, rfl, ?_⟩
  cases text with
  | nil => exact .inl rfl
  | cons c rest =>
      by_cases space : isSpace c = true
      · refine .inr ⟨⟨.whitespace, place.after ['\n'], c :: rest.takeWhile isSpace⟩, ?_, rfl⟩
        rw [tokensFrom_space space, List.takeWhile_cons_of_pos space, List.dropWhile_cons_of_pos space,
          ← Place.after_append]
        rfl
      · rw [List.takeWhile_cons_of_neg space, List.dropWhile_cons_of_neg space]
        exact .inl rfl

/-! Nodes of tokens behind one another. -/

namespace Nesting

/-- What was read, with nodes in front of all of it, the last one first. -/
def inFront (base nodes : List Node) : List OpenBlock → Nesting
  | [] => ⟨nodes ++ base, []⟩
  | b :: outer =>
    let around := inFront base b.before outer
    ⟨nodes, ⟨b.opening, b.opener, around.nodes⟩ :: around.blocks⟩

theorem inFront_cons (base nodes : List Node) (blocks : List OpenBlock) (n : Node) :
    inFront base (n :: nodes) blocks = ⟨n :: (inFront base nodes blocks).nodes, (inFront base nodes blocks).blocks⟩ := by
  cases blocks <;> rfl

theorem push_inFront (base nodes : List Node) (blocks : List OpenBlock) (t : Token) :
    (inFront base nodes blocks).push t = inFront base (push ⟨nodes, blocks⟩ t).nodes (push ⟨nodes, blocks⟩ t).blocks := by
  cases blocks with
  | nil =>
      rw [inFront, push, push]
      cases t.kind.opens? <;> rfl
  | cons b outer =>
      rw [inFront, push, push]
      cases t.kind.opens? with
      | some opening => rfl
      | none =>
          dsimp only
          split
          · exact (inFront_cons base b.before outer _).symm
          · rfl

theorem foldl_inFront (base : List Node) (s : Nesting) (ts : List Token) :
    ts.foldl push (inFront base s.nodes s.blocks) = inFront base (ts.foldl push s).nodes (ts.foldl push s).blocks := by
  induction ts generalizing s with
  | nil => rfl
  | cons t rest ih => rw [List.foldl_cons, List.foldl_cons, push_inFront, ih]

theorem finish_inFront (base nodes : List Node) (blocks : List OpenBlock) :
    (inFront base nodes blocks).finish = base.reverse ++ finish ⟨nodes, blocks⟩ := by
  induction blocks generalizing nodes with
  | nil => exact List.reverse_append
  | cons b outer ih =>
      have closed := ih (close nodes b none)
      rw [close, inFront_cons] at closed
      exact closed

/-- A block that is still open at the end is the last node, and has no closing token. -/
theorem finish_open (nodes : List Node) (b : OpenBlock) (outer : List OpenBlock) :
    ∃ front opening opener contents, finish ⟨nodes, b :: outer⟩ = front ++ [.block opening opener contents none] := by
  induction outer generalizing nodes b with
  | nil => exact ⟨b.before.reverse, _, _, _, List.reverse_cons⟩
  | cons c outer ih => exact ih (close nodes b none) c

end Nesting

/-- A node that is not a block without a closing token. -/
def Node.IsClosed : Node → Prop
  | .leaf _ => True
  | .block _ _ _ closer => closer ≠ none

theorem Node.AreNested.closed {around : Option Bracket} {ns : List Node} (h : Node.AreNested around false ns) :
    ∀ n ∈ ns, n.IsClosed := by
  induction ns with
  | nil => exact List.forall_mem_nil _
  | cons n ns ih =>
      refine List.forall_mem_cons.mpr ⟨?_, ih h.2⟩
      cases n with
      | leaf t => trivial
      | block opening opener contents closer => exact fun none => absurd (h.1.2.2.2 none) Bool.false_ne_true

/-- Behind a node that is closed the nodes are those of the tokens behind it. -/
theorem Node.ofTokens_append {ts : List Token} {ahead : List Node} {n : Node} (h : Node.ofTokens ts = ahead ++ [n])
    (closed : n.IsClosed) (us : List Token) : Node.ofTokens (ts ++ us) = Node.ofTokens ts ++ Node.ofTokens us := by
  have none : (ts.foldl Nesting.push {}).blocks = [] := by
    rw [Node.ofTokens] at h
    generalize ts.foldl Nesting.push {} = s at h
    obtain ⟨nodes, blocks⟩ := s
    cases blocks with
    | nil => rfl
    | cons b outer =>
        obtain ⟨front, opening, opener, contents, last⟩ := Nesting.finish_open nodes b outer
        obtain ⟨-, same⟩ := List.append_inj' (h.symm.trans last) rfl
        obtain rfl := List.singleton_inj.mp same
        exact absurd rfl closed
  rw [Node.ofTokens, Node.ofTokens, Node.ofTokens, List.foldl_append]
  generalize ts.foldl Nesting.push {} = s at none
  obtain ⟨nodes, blocks⟩ := s
  obtain rfl : blocks = [] := none
  have behind := Nesting.foldl_inFront nodes {} us
  rw [show Nesting.inFront nodes [] [] = ⟨nodes, []⟩ from rfl] at behind
  rw [behind, Nesting.finish_inFront]
  rfl

/-! Rules of nodes behind one another. -/

theorem readStyleBlock_closed {n : Node} (closed : n.IsClosed) (stop stop' : Ending) (line : Nat) (nodes : List Node) :
    readStyleBlock stop line nodes n = readStyleBlock stop' line nodes n := by
  cases n with
  | leaf t => rfl
  | block opening opener contents closer =>
      cases closer with
      | none => exact absurd rfl closed
      | some t => rfl

theorem readAtBlock_closed {n : Node} (closed : n.IsClosed) (stop stop' : Ending) (name : String) (line : Nat)
    (prelude : List Node) : readAtBlock stop name line prelude n = readAtBlock stop' name line prelude n := by
  cases n with
  | leaf t => rfl
  | block opening opener contents closer =>
      cases closer with
      | none => exact absurd rfl closed
      | some t => rfl

/-- How a list ends does not matter to a node that is closed. -/
theorem ruleStep_closed {n : Node} (closed : n.IsClosed) (nested : Bool) (stop stop' : Ending) (next : Nat)
    (pending : PendingRule) : ruleStep nested stop next pending n = ruleStep nested stop' next pending n := by
  cases pending with
  | nothing => simp only [ruleStep, readStyleBlock_closed closed stop stop']
  | style line nodes => simp only [ruleStep, readStyleBlock_closed closed stop stop']
  | atRule name line nodes => simp only [ruleStep, readAtBlock_closed closed stop stop']

/-- What is waited for behind a node of the top level. Neither the end of the list nor the line of the next token matters
to it. -/
def PendingRule.behind (pending : PendingRule) (n : Node) : PendingRule := (ruleStep false ⟨false, 0⟩ 0 pending n).2

theorem PendingRule.behind_eq (pending : PendingRule) (n : Node) (stop : Ending) (next : Nat) :
    (ruleStep false stop next pending n).2 = pending.behind n := by
  cases pending with
  | nothing =>
      rw [behind, ruleStep, ruleStep]
      split
      · rfl
      · rfl
      · split
        · rfl
        · split
          · rfl
          · split <;> rfl
  | style line nodes =>
      simp only [behind, ruleStep]
      split <;> rfl
  | atRule name line nodes =>
      simp only [behind, ruleStep]
      split
      · rfl
      · split <;> rfl

/-- The node finishes a rule of the top level with the token: with the brace that closes a block or, if an at-rule is
waited for, with a semicolon. -/
inductive Finishes : PendingRule → Node → Token → Prop
  | block (pending : PendingRule) (opener : Token) (contents : List Node) (closer : Token) :
      Finishes pending (.block (.bracket .curly) opener contents (some closer)) closer
  | semicolon (name : String) (line : Nat) (nodes : List Node) {t : Token} : t.kind = .semicolon →
      Finishes (.atRule name line nodes) (.leaf t) t

theorem Finishes.isClosed {pending : PendingRule} {n : Node} {t : Token} (h : Finishes pending n t) : n.IsClosed := by
  cases h with
  | block => exact Option.some_ne_none _
  | semicolon => trivial

/-- Where a rule is finished, neither the end of the list nor the next token matters, and nothing is waited for. -/
theorem Finishes.step {pending : PendingRule} {n : Node} {t : Token} (h : Finishes pending n t) :
    ∃ r, ∀ stop next, ruleStep false stop next pending n = (r, .nothing) := by
  cases h with
  | block pending opener contents closer =>
      let n := Node.block (.bracket .curly) opener contents (some t)
      cases pending with
      | nothing => exact ⟨readStyleBlock ⟨false, 0⟩ n.line [] n, fun stop next => rfl⟩
      | style line nodes => exact ⟨readStyleBlock ⟨false, 0⟩ line nodes n, fun stop next => rfl⟩
      | atRule name line nodes => exact ⟨readAtBlock ⟨false, 0⟩ name line nodes n, fun stop next => rfl⟩
  | @semicolon name line nodes t kind =>
      refine ⟨.item (atRuleWithoutBlock name line nodes), fun stop next => ?_⟩
      have semicolon : (Node.leaf t).kind? = some .semicolon := congrArg some kind
      rw [ruleStep, if_neg (by rw [Node.isCurly_of_kind? semicolon]; decide), if_pos semicolon]

/-- Up to the node that finishes a rule, what is read does not depend on what stands behind it. -/
theorem readRules_finished {ahead : List Node} {n : Node} {t : Token} {pending : PendingRule}
    (closed : ∀ m ∈ ahead, m.IsClosed) (finishes : Finishes (ahead.foldl PendingRule.behind pending) n t) :
    ∃ r, ∀ stop rest, readRules false stop pending (ahead ++ n :: rest) = r ++ readRules false stop .nothing rest := by
  induction ahead generalizing pending with
  | nil =>
      rw [List.foldl_nil] at finishes
      obtain ⟨r, step⟩ := finishes.step
      refine ⟨r, fun stop rest => ?_⟩
      rw [List.nil_append, readRules_cons, step]
  | cons m ahead ih =>
      obtain ⟨first, later⟩ := List.forall_mem_cons.mp closed
      obtain ⟨r, read⟩ := ih later finishes
      -- the next token stands in front of the end, so that its line is the same whatever follows
      have next (stop : Ending) (rest : List Node) :
          stop.next (ahead ++ n :: rest) = Ending.next ⟨false, 0⟩ (ahead ++ [n]) := by
        cases ahead <;> rfl
      refine ⟨(ruleStep false ⟨false, 0⟩ (Ending.next ⟨false, 0⟩ (ahead ++ [n])) pending m).1 ++ r, fun stop rest => ?_⟩
      rw [List.cons_append, readRules_cons, PendingRule.behind_eq, read, next, ruleStep_closed first false stop ⟨false, 0⟩,
        Reading.append_assoc]

namespace Stylesheet

/-- White space in front of tokens is not seen. -/
theorem ofTokens_space {w : Token} {ts : List Token} (space : w.kind = .whitespace) (some : ts ≠ []) :
    ofTokens (w :: ts) = ofTokens ts := by
  have kept : w.kind ≠ .endOfSource := by
    rw [space]
    decide
  have leaf : w.kind.IsLeaf := by
    rw [space]
    exact ⟨rfl, nofun⟩
  have alone : Node.ofTokens [w] = [] ++ [.leaf w] := ofTokens_nests (.leaf leaf)
  have nodes : Node.ofTokens ((w :: ts).takeWhile (·.kind ≠ .endOfSource)) =
      .leaf w :: Node.ofTokens (ts.takeWhile (·.kind ≠ .endOfSource)) := by
    rw [List.takeWhile_cons_of_pos (by simpa using kept), ← List.singleton_append, Node.ofTokens_append alone trivial, alone]
    rfl
  have line : endLine (w :: ts) = endLine ts := by
    rw [endLine, endLine, List.find?_cons_of_neg (by simpa using kept)]
    split
    · rfl
    · rw [List.getLast?_cons_of_ne_nil some]
  have kind : (Node.leaf w).kind? = Option.some .whitespace := congrArg Option.some space
  rw [ofTokens, ofTokens, nodes, line, readRules_cons, ruleStep, kind]
  rfl

/-- Tokens that end where a rule is finished, and others behind them. -/
theorem ofTokens_finished {ts us : List Token} {ahead : List Node} {n : Node} {t : Token}
    (kept : ∀ u ∈ ts, u.kind ≠ .endOfSource) (nodes : Node.ofTokens ts = ahead ++ [n])
    (finishes : Finishes (ahead.foldl PendingRule.behind .nothing) n t) (some : us ≠ []) :
    ofTokens (ts ++ us) = ofTokens ts ++ ofTokens us := by
  have closed : ∀ m ∈ ahead, m.IsClosed := by
    have nested := areNested_ofTokens kept
    rw [nodes, Node.areNested_append] at nested
    exact fun m member => (nested.1.closed m member)
  obtain ⟨r, read⟩ := readRules_finished closed finishes
  have alone : ofTokens ts = ⟨r.items, r.issues⟩ := by
    have whole : ts.takeWhile (·.kind ≠ .endOfSource) = ts := List.takeWhile_eq_self_iff.mpr (by simpa using kept)
    rw [ofTokens, whole, nodes, read, readRules_nil]
    exact congrArg (fun r : Reading Rule => Stylesheet.mk r.items r.issues) (Reading.append_empty r)
  have cut : (ts ++ us).takeWhile (·.kind ≠ .endOfSource) = ts ++ us.takeWhile (·.kind ≠ .endOfSource) :=
    List.takeWhile_append_of_pos (by simpa using kept)
  have line : endLine (ts ++ us) = endLine us := by
    have first : ts.find? (fun u => decide (u.kind = .endOfSource)) = none := by
      rw [List.find?_eq_none]
      simpa using kept
    rw [endLine, endLine, List.find?_append, first, Option.none_or, List.getLast?_append_of_ne_nil _ some]
  rw [alone, ofTokens, cut, line, Node.ofTokens_append nodes finishes.isClosed, nodes, List.append_assoc,
    List.singleton_append, read]
  rfl

end Stylesheet

/-! Sources. -/

/-- A source in normal form whose last character is the token with which a rule of the top level is finished. -/
structure EndsInRule (source : String) : Prop where
  normal : normalize source.toList = source.toList
  finished : ∃ before mark ahead n t, source.toList = before ++ [mark] ∧ (mark = '\x7d' ∨ mark = ';') ∧
    Node.ofTokens ((tokenize source).takeWhile (·.kind ≠ .endOfSource)) = ahead ++ [n] ∧
    Finishes (ahead.foldl PendingRule.behind .nothing) n t ∧ t.start = before.length

theorem normalize_cons {c : Char} (h : c ≠ '\r') (rest : List Char) : normalize (c :: rest) = normalChar c :: normalize rest := by
  rw [normalize, normalChar]
  rintro rest' rfl -
  exact h rfl

theorem normalize_append {text : List Char} (h : '\r' ∉ text) (rest : List Char) :
    normalize (text ++ rest) = normalize text ++ normalize rest := by
  induction text with
  | nil => rfl
  | cons c text ih =>
      rw [List.mem_cons, not_or] at h
      rw [List.cons_append, normalize_cons (Ne.symm h.1), normalize_cons (Ne.symm h.1), ih h.2, List.cons_append]

theorem Finishes.last {pending : PendingRule} {n : Node} {t : Token} (h : Finishes pending n t) :
    ∃ inside, n.tokens = inside ++ [t] := by
  cases h with
  | block pending opener contents => exact ⟨opener :: Node.listTokens contents, rfl⟩
  | semicolon => exact ⟨[], rfl⟩

theorem EndsInRule.not_mem {source : String} (h : EndsInRule source) : '\r' ∉ source.toList := by
  rw [← h.normal]
  exact not_mem_normalize _

/-- The tokens of a source that ends in a rule are the first ones of every source that begins with it. -/
theorem EndsInRule.tokens {source : String} (h : EndsInRule source) :
    ∃ ts ahead n t, (∀ u ∈ ts, u.kind ≠ .endOfSource) ∧ Node.ofTokens ts = ahead ++ [n] ∧
      Finishes (ahead.foldl PendingRule.behind .nothing) n t ∧
      ∀ rest, tokensFrom {} (source.toList ++ rest) = ts ++ tokensFrom (Place.after {} source.toList) rest := by
  obtain ⟨before, mark, ahead, n, t, whole, last, nodes, finishes, start⟩ := h.finished
  obtain ⟨kind, isMark⟩ : ∃ kind, IsMark mark kind := by
    rcases last with rfl | rfl
    · exact ⟨_, isMark_brace⟩
    · exact ⟨_, isMark_semicolon⟩
  obtain ⟨inside, tokens⟩ := finishes.last
  have source_ : tokenize source = tokensFrom {} (before ++ [mark]) := by rw [tokenize, h.normal, whole, Css.tokens]
  rw [source_] at nodes
  -- the token that finishes the rule is the last one in front of the end mark
  have front : (tokensFrom {} (before ++ [mark])).takeWhile (·.kind ≠ .endOfSource) =
      Node.listTokens ahead ++ inside ++ [t] := by
    rw [← listTokens_ofTokens (List.takeWhile _ _), nodes, Node.listTokens_append, Node.listTokens, Node.listTokens, tokens]
    simp
  have kept : ∀ u ∈ Node.listTokens ahead ++ inside ++ [t], u.kind ≠ .endOfSource := by
    intro u member
    rw [← front] at member
    simpa using List.mem_takeWhile_imp member
  refine ⟨Node.listTokens ahead ++ inside ++ [t], ahead, n, t, kept, front ▸ nodes, finishes, fun rest => ?_⟩
  have split : tokensFrom {} (before ++ [mark]) = Node.listTokens ahead ++ inside ++
      t :: (tokensFrom {} (before ++ [mark])).dropWhile (·.kind ≠ .endOfSource) := by
    conv => lhs; rw [← List.takeWhile_append_dropWhile (p := fun u : Token => decide (u.kind ≠ .endOfSource))
      (l := tokensFrom {} (before ++ [mark])), front]
    simp
  have start : t.start = Place.offset {} + before.length := by rw [start, Nat.zero_add]
  rw [whole, List.append_assoc, List.singleton_append,
    isMark.tokensFrom_append split start (kept t (by simp)) rest]
  simp

/-- A line feed in front of a text is seen only in the places of the tokens behind it. -/
theorem Stylesheet.ofTokens_feed (place : Place) (text : List Char) :
    ofTokens (tokensFrom place ('\n' :: text)) = ofTokens (tokensFrom (place.after ['\n']) text) := by
  obtain ⟨w, ts, tokens, space, later⟩ := tokensFrom_feed place text
  have some : ts ≠ [] := by
    rintro rfl
    obtain ⟨body, same, -⟩ := (tokensFrom_laid place ('\n' :: text)).finish
    rw [tokens] at same
    cases body with
    | nil =>
        obtain ⟨rfl, -⟩ := List.cons.inj same
        cases space
    | cons u body => exact absurd (List.cons.inj same).2 (by simp)
  rw [tokens, ofTokens_space space some]
  rcases later with later | ⟨w', later, space'⟩
  · rw [later]
  · rw [later, ofTokens_space space' some]

theorem moves_shifted (offset line : Nat) : Moves (Token.shifted offset line) (· + line) :=
  ⟨fun _ => rfl, fun _ => rfl, fun _ => rfl⟩

/-- What stands on a line behind a source that ends in a rule of the top level is read as it is alone: its rules and issues
follow those of the source, so many lines further on. -/
theorem ofText_append {first : String} (h : EndsInRule first) (second : String) :
    Stylesheet.ofText (first ++ "\n" ++ second) =
      Stylesheet.ofText first ++ (Stylesheet.ofText second).moved (· + (first.toList.count '\n' + 1)) := by
  obtain ⟨ts, ahead, n, t, kept, nodes, finishes, tokens⟩ := h.tokens
  have alone : Stylesheet.ofText first = Stylesheet.ofTokens ts := by
    have all := tokens []
    rw [List.append_nil, tokensFrom_nil] at all
    rw [Stylesheet.ofText, tokenize, h.normal, Css.tokens, all,
      Stylesheet.ofTokens_finished kept nodes finishes (List.cons_ne_nil _ _)]
    generalize Stylesheet.ofTokens ts = sheet
    obtain ⟨rules, issues⟩ := sheet
    exact congr (congrArg Stylesheet.mk (List.append_nil rules)) (List.append_nil issues)
  have source : normalize (first ++ "\n" ++ second).toList = first.toList ++ '\n' :: normalize second.toList := by
    have feed : normalize ('\n' :: second.toList) = '\n' :: normalize second.toList := normalize_cons (by decide) _
    rw [String.toList_append, String.toList_append, List.append_assoc, normalize_append h.not_mem, h.normal]
    exact congrArg (first.toList ++ ·) feed
  have place : (Place.after {} first.toList).after ['\n'] =
      ⟨Place.offset {} + (first.toList.length + 1), Place.line {} + (first.toList.count '\n' + 1)⟩ := by
    simp only [Place.after, List.length_singleton, List.count_singleton_self, Nat.add_assoc]
  rw [alone, Stylesheet.ofText, tokenize, source, Css.tokens, tokens,
    Stylesheet.ofTokens_finished kept nodes finishes (tokensFrom_ne_nil _ _), Stylesheet.ofTokens_feed, place,
    tokensFrom_shifted, Stylesheet.ofTokens_moved (moves_shifted _ _) (tokensFrom_ne_nil _ _)]
  rfl

/-- An unclosed bracket of the second source and a brace at its beginning stay there, behind an at-rule with a semicolon. -/
theorem ofText_append_semicolon :
    Stylesheet.ofText "a\x7b\x7d\n@b c;\n\x7d d(" =
      Stylesheet.ofText "a\x7b\x7d\n@b c;" ++ (Stylesheet.ofText "\x7d d(").moved (· + 2) := by
  have tokens : tokenize "a\x7b\x7d\n@b c;" =
      [⟨.ident "a", ⟨0, 1⟩, ['a']⟩, ⟨.opening .curly, ⟨1, 1⟩, ['\x7b']⟩, ⟨.closing .curly, ⟨2, 1⟩, ['\x7d']⟩,
        ⟨.whitespace, ⟨3, 1⟩, ['\n']⟩, ⟨.atKeyword "b", ⟨4, 2⟩, "@b".toList⟩, ⟨.whitespace, ⟨6, 2⟩, [' ']⟩,
        ⟨.ident "c", ⟨7, 2⟩, ['c']⟩, ⟨.semicolon, ⟨8, 2⟩, [';']⟩, ⟨.endOfSource, ⟨9, 2⟩, []⟩] := by decide +kernel
  have ends : EndsInRule "a\x7b\x7d\n@b c;" := by
    refine ⟨by decide, "a\x7b\x7d\n@b c".toList, ';',
      [.leaf ⟨.ident "a", ⟨0, 1⟩, ['a']⟩,
        .block (.bracket .curly) ⟨.opening .curly, ⟨1, 1⟩, ['\x7b']⟩ [] (some ⟨.closing .curly, ⟨2, 1⟩, ['\x7d']⟩),
        .leaf ⟨.whitespace, ⟨3, 1⟩, ['\n']⟩, .leaf ⟨.atKeyword "b", ⟨4, 2⟩, "@b".toList⟩,
        .leaf ⟨.whitespace, ⟨6, 2⟩, [' ']⟩, .leaf ⟨.ident "c", ⟨7, 2⟩, ['c']⟩],
      .leaf ⟨.semicolon, ⟨8, 2⟩, [';']⟩, ⟨.semicolon, ⟨8, 2⟩, [';']⟩, by decide, .inr rfl, ?_, ?_, by decide⟩
    · rw [tokens]
      rfl
    · exact .semicolon _ 2 _ rfl
  exact ofText_append ends "\x7d d("

end StyleAudit.Css
