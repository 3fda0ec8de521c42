import StyleAudit.Proofs.CursorLists
/-!
The rules and declarations that the routines of a cursor read are those that the nodes make up, and no token is left
unread.
-/
namespace StyleAudit.Css
namespace Routine
variable {input : Input}

/-! Declarations. -/

section
variable {stop : Ending} {closer : Option Token} {behind : List Token} {c : Cursor} {ns : List Node}

theorem declarationOf_nodes (name : String) (line : Nat) (nodes : List Node) :
    declarationOf name line (ComponentValue.ofNodes nodes) (String.ofList (compactText (Node.listTokens nodes))) =
      declaration name line nodes.reverse := by
  have values : ComponentValue.ofNodes nodes.reverse = (ComponentValue.ofNodes nodes).reverse := by
    rw [ComponentValue.ofNodes_eq_map, ComponentValue.ofNodes_eq_map, List.map_reverse]
  cases marked : beforeImportant (ComponentValue.ofNodes nodes).reverse with
  | none => simp only [declarationOf, declaration, List.reverse_reverse, values, marked]
  | some rest => simp only [declarationOf, declaration, List.reverse_reverse, values, marked, String.toList_ofList]

/-- The value of a declaration, behind its colon. -/
theorem Listed.declared (spelled : input.Spelled) (h : Listed input true stop closer behind c ns) (name : String)
    (line : Nat) :
    ∃ space part rest, ns = space ++ (part ++ rest) ∧
      Comes (skipSpace input) c () (c.after (Node.listTokens space) []) ∧
      Comes (Routine.valuesAndText input endsValue) (c.after (Node.listTokens space) [])
        (ComponentValue.ofNodes part, String.ofList (compactText (Node.listTokens part)))
        (c.after (Node.listTokens (space ++ part)) []) ∧
      readDeclarations stop (.value name line []) ns =
        .item (declaration name line part.reverse) ++ readDeclarations stop .nothing rest := by
  obtain ⟨space, ns, rfl, white, visible, skipped⟩ := h.space
  have behindSpace := h.after space []
  obtain ⟨part, rest, rfl, further, ended, read⟩ := behindSpace.toSemicolon
  have waiting (n : Node) (hn : n ∈ space) :
      declarationStep stop (.value name line []) n = ({}, .value name line []) := by
    simp [declarationStep, white n hn]
  have head (n : Node) (hn : n ∈ part.head?) : n.kind? ≠ some .whitespace := by
    refine visible n ?_
    cases part with
    | nil => cases hn
    | cons m part => exact hn
  refine ⟨space, part, rest, rfl, skipped, ?_, ?_⟩
  · simpa [Node.listTokens_append] using behindSpace.valuesAndText spelled read
  · rw [readDeclarations_idle waiting, readDeclarations_value further (.inr head), List.append_nil,
      readDeclarations_valueEnd ended]

theorem declarationAt_ahead (spelled : input.Spelled) {t : Token} {name : String} (kind : t.kind = .ident name)
    (h : Listed input true stop closer behind c (.leaf t :: ns)) :
    ∃ part rest d issues, ns = part ++ rest ∧
      Comes (declarationAt input) c d (c.after (t :: Node.listTokens part) issues) ∧
      readDeclarations stop (.colon name t.line) ns = ⟨d.toList, issues⟩ ++ readDeclarations stop .nothing rest := by
  obtain ⟨k, place, lexeme⟩ := t
  obtain rfl : k = .ident name := kind
  change ∃ part rest d issues, _ ∧ _ ∧ readDeclarations stop (.colon name place.line) ns = _
  have behindName := h.after [.leaf ⟨.ident name, place, lexeme⟩] []
  obtain ⟨space, ns, rfl, white, visible, skipped⟩ := behindName.space
  have atColon := behindName.after _ []
  have waiting (n : Node) (hn : n ∈ space) :
      declarationStep stop (.colon name place.line) n = ({}, .colon name place.line) := by
    rw [declarationStep, white n hn]
  rw [readDeclarations_idle waiting]
  by_cases colon : ∃ n ∈ ns.head?, n.kind? = some .colon
  · obtain ⟨u, ns, rfl, kind⟩ := leaf_head colon
    obtain ⟨blank, part, rest, rfl, skipped', read, same⟩ :=
      (atColon.after [.leaf u] []).declared spelled name place.line
    have step : declarationStep stop (.colon name place.line) (.leaf u) = ({}, .value name place.line []) := by
      rw [declarationStep, Node.kind?, kind]
    refine ⟨space ++ .leaf u :: (blank ++ part), rest, some (declaration name place.line part.reverse), [], by simp,
      ?_, ?_⟩
    · change Comes (fun fuel => declarationAt input fuel) _ _ _
      simp only [declarationAt]
      refine .bind (.of (next_ahead h.ahead)) ?_
      refine .bind (.call skipped (Nat.le_add_right _ _)) ?_
      refine .bind (.of (nextIf_ahead atColon.ahead kind)) ?_
      refine .bind (.call skipped' (Nat.le_add_right _ _)) ?_
      refine .bind (.call read (by simp [Node.listTokens_append])) ?_
      rw [declarationOf_nodes]
      simpa [Node.listTokens, Node.tokens, Node.listTokens_append] using Comes.done _ _
    · rw [readDeclarations_cons, step]
      exact same
  · have other (n : Node) (hn : n ∈ ns.head?) : n.kind? ≠ some .colon := fun same => colon ⟨n, hn, same⟩
    have unlike (n : Node) (hn : n ∈ ns.head?) : n.first.kind ≠ .colon := fun same =>
      other n hn (((atColon.nodes.mem (List.mem_of_mem_head? hn)).kind?_iff rfl).mpr same)
    have line := atColon.line_next
    obtain ⟨part, rest, values, rfl, read, same⟩ := Listed.skip
      (atColon.after [] [⟨.noColon name, stop.next ns⟩])
    refine ⟨space ++ part, rest, none, [⟨.noColon name, stop.next (part ++ rest)⟩], by simp, ?_, ?_⟩
    · change Comes (fun fuel => declarationAt input fuel) _ _ _
      simp only [declarationAt]
      refine .bind (.of (next_ahead h.ahead)) ?_
      refine .bind (.call skipped (Nat.le_add_right _ _)) ?_
      refine .bind (.of (nextIf_other atColon.ahead (atColon.first_ne (by decide) (by decide) unlike))) ?_
      refine .bind (.of (report_ahead atColon.ahead _)) ?_
      rw [line]
      refine .bind (.call read (Nat.le_add_right _ _)) ?_
      simpa [Node.listTokens, Node.tokens, Node.listTokens_append] using Comes.done _ _
    · rw [readDeclarations_noColon fun n hn => ⟨visible n hn, other n hn⟩, same]
      rfl
end

/-! Rules. -/

/-- From the cursor on the routine reads the rules of a list and puts them behind those read already. It goes over the
nodes and the token that closes them. -/
def ReadsRuleList (nested : Bool) (stop : Ending) (closer : Option Token) (ns : List Node) (c : Cursor)
    (rules : List Rule) (r : Nat → Routine (List Rule)) : Prop :=
  Comes r c (rules ++ (readRules nested stop .nothing ns).items)
    (c.after (Node.listTokens ns ++ closer.toList) (readRules nested stop .nothing ns).issues)

/-- From the cursor on the routine reads the declarations of a list and puts them behind those read already. The token
that closes the list is left. -/
def ReadsDeclarationList (stop : Ending) (ns : List Node) (c : Cursor) (declarations : List Declaration)
    (r : Nat → Routine (List Declaration)) : Prop :=
  Comes r c (declarations ++ (readDeclarations stop .nothing ns).items)
    (c.after (Node.listTokens ns) (readDeclarations stop .nothing ns).issues)

/-- All lists with fewer tokens than the given number are read. -/
structure ListsRead (input : Input) (size : Nat) : Prop where
  rules : ∀ {nested stop closer behind c ns}, Listed input nested stop closer behind c ns →
    (Node.listTokens ns).length < size → ∀ rules,
      ReadsRuleList nested stop closer ns c rules (ruleList input nested rules)
  declarations : ∀ {stop closer behind c ns}, Listed input true stop closer behind c ns →
    (Node.listTokens ns).length < size → ∀ declarations,
      ReadsDeclarationList stop ns c declarations (declarationList input declarations)

section
variable {nested : Bool} {stop : Ending} {closer : Option Token} {behind : List Token} {c : Cursor} {ns : List Node}
  {size : Nat}

theorem statementOf_nodes (name : String) (line : Nat) (nodes : List Node) :
    statementOf name line (ComponentValue.ofNodes nodes) (String.ofList (compactText (Node.listTokens nodes))) =
      atRuleWithoutBlock name line nodes.reverse := by
  rw [atRuleWithoutBlock, textOf, List.reverse_reverse]
  rfl

theorem atBlock_ahead (lists : ListsRead input size) (h : Listed input true stop closer behind c ns)
    (small : (Node.listTokens ns).length < size) (opener : Token) (outer : Ending) (hs : outer.ofCloser closer = stop)
    (name : String) (line : Nat) (prelude : List Node) :
    ∃ rule issues,
      Comes (atBlock input name line (textOf prelude)) c rule (c.after (Node.listTokens ns ++ closer.toList) issues) ∧
      readAtBlock outer name line prelude (.block (.bracket .curly) opener ns closer) = ⟨[rule], issues⟩ := by
  simp only [readAtBlock, hs]
  cases known : BlockKind.ofName name with
  | rules =>
      refine ⟨_, _, .succ ?_, rfl⟩
      simp only [atBlock, known]
      refine .bind (.call (lists.rules h small []) (Nat.le_add_right _ _)) ?_
      simpa [Reading.discard, Reading.item] using Comes.done _ _
  | keyframes =>
      refine ⟨_, _, .succ ?_, rfl⟩
      simp only [atBlock, known]
      refine .bind (.call (lists.rules h small []) (Nat.le_add_right _ _)) ?_
      simpa [Reading.discard, Reading.item] using Comes.done _ _
  | declarations =>
      have atCloser : input.Ahead (c.after (Node.listTokens ns) (readDeclarations stop .nothing ns).issues)
          (closer.toList ++ behind) := h.ahead.after _
      refine ⟨.descriptors line name (textOf prelude) (readDeclarations stop .nothing ns).items,
        (readDeclarations stop .nothing ns).issues ++ if stop.closed then [] else [⟨.unclosedBlock name, stop.line⟩],
        .succ ?_, ?_⟩
      · simp only [atBlock, known]
        refine .bind (.call (lists.declarations h small []) (Nat.le_add_right _ _)) ?_
        refine .bind (.of (nextIf_closer atCloser (fun t same => (h.closes t same).2) h.ends)) ?_
        refine .bind (.of (reportIf_ahead (atCloser.after []) _ _)) ?_
        cases closer with
        | some t => simpa [h.closed] using Comes.done _ _
        | none =>
            have line : input.lineOf behind = stop.line := h.line
            simpa [h.closed, line] using Comes.done _ _
      · cases stop.closed <;> simp [Reading.discard, Reading.item, Reading.issue, Reading.mk_append]

theorem atRule_ahead (spelled : input.Spelled) (lists : ListsRead input size) {t : Token} {name : String}
    (kind : t.kind = .atKeyword name) (h : Listed input nested stop closer behind c (.leaf t :: ns))
    (small : (Node.listTokens ns).length < size) :
    ∃ part rest rule issues, ns = part ++ rest ∧
      Comes (atRule input nested) c (some rule) (c.after (t :: Node.listTokens part) issues) ∧
      readRules nested stop (.atRule name.toLower t.line []) ns =
        ⟨[rule], issues⟩ ++ readRules nested stop .nothing rest ∧
      readDeclarations stop (.atRule name.toLower t.line []) ns =
        ⟨[], issues⟩ ++ readDeclarations stop .nothing rest := by
  obtain ⟨k, place, lexeme⟩ := t
  obtain rfl : k = .atKeyword name := kind
  have behindName := h.after [.leaf ⟨.atKeyword name, place, lexeme⟩] []
  obtain ⟨prelude, rest, rfl, inPrelude, stopped, read⟩ := behindName.prelude
  have readHead := behindName.valuesAndText spelled read
  have atEnd := behindName.after _ []
  rw [readRules_prelude inPrelude, readDeclarations_prelude inPrelude, List.append_nil]
  by_cases curly : ∃ n ∈ rest.head?, n.isCurly = true
  · obtain ⟨opener, contents, inner, rest, rfl⟩ := curly_head curly
    have opening : opener.kind = .opening .curly := atEnd.nodes.1.isCurly_iff.mp rfl
    have within := atEnd.inside
    have fewer : (Node.listTokens contents).length < size := by
      simp only [Node.listTokens_append, Node.listTokens, Node.tokens, List.length_append, List.length_cons] at small
      omega
    obtain ⟨rule, issues, readBlock, same⟩ :=
      atBlock_ahead lists within fewer opener stop rfl name.toLower place.line prelude.reverse
    refine ⟨prelude ++ [.block (.bracket .curly) opener contents inner], rest, rule, issues, by simp, .succ ?_, ?_, ?_⟩
    · simp only [atRule]
      refine .bind (.of (next_ahead h.ahead)) ?_
      refine .bind (.call readHead (Nat.le_add_right _ _)) ?_
      refine .bind (.of (nextIf_ahead atEnd.ahead opening)) ?_
      rw [textOf, List.reverse_reverse] at readBlock
      refine .bind (.call readBlock (Nat.le_add_right _ _)) ?_
      simpa [Node.listTokens, Node.tokens, Node.listTokens_append] using Comes.done _ _
    · exact (readRules_preludeBlock rfl).trans (congrArg (· ++ readRules nested stop .nothing rest) same)
    · exact (readDeclarations_preludeBlock rfl).trans
        (congrArg (·.discard ++ readDeclarations stop .nothing rest) same)
  · have semicolon (n : Node) (hn : n ∈ rest.head?) : n.kind? = some .semicolon :=
      (stopped n hn).resolve_left fun block => curly ⟨n, hn, block⟩
    have noBlock (n : Node) (hn : n ∈ rest.head?) : n.first.kind ≠ .opening .curly := fun same =>
      curly ⟨n, hn, (atEnd.nodes.mem (List.mem_of_mem_head? hn)).isCurly_iff.mpr same⟩
    obtain ⟨found, passed⟩ := atEnd.semicolon semicolon
    refine ⟨prelude ++ rest.take 1, rest.drop 1, atRuleWithoutBlock name.toLower place.line prelude.reverse, [],
      by rw [List.append_assoc, List.take_append_drop], .succ ?_, readRules_preludeEnd semicolon,
      readDeclarations_preludeEnd semicolon⟩
    simp only [atRule]
    refine .bind (.of (next_ahead h.ahead)) ?_
    refine .bind (.call readHead (Nat.le_add_right _ _)) ?_
    refine .bind (.of (nextIf_other atEnd.ahead (atEnd.first_ne (by decide) (by decide) noBlock))) ?_
    refine .bind (.of passed) ?_
    rw [statementOf_nodes]
    simpa [Node.listTokens, Node.tokens, Node.listTokens_append] using Comes.done _ _

theorem styleRule_ahead (spelled : input.Spelled) (lists : ListsRead input size) {n : Node} (first : ns.head? = some n)
    (h : Listed input nested stop closer behind c ns) (small : (Node.listTokens ns).length < size + 1) :
    ∃ part rest rule issues, ns = part ++ rest ∧ part ≠ [] ∧
      Comes (styleRule input nested) c rule (c.after (Node.listTokens part) issues) ∧
      readRules nested stop (.style n.line []) ns =
        ⟨(rule.map Rule.style).toList, issues⟩ ++ readRules nested stop .nothing rest := by
  have line : ((input.tokens[c.position]?).map Token.line).getD 0 = n.line := by
    cases ns with
    | nil => cases first
    | cons m ns =>
        obtain rfl := Option.some.inj first
        rw [h.ahead.head?, Node.listTokens, List.append_assoc, Node.head?_tokens]
        rfl
  obtain ⟨prelude, rest, rfl, inPrelude, stopped, read⟩ := h.selectors
  have atEnd := h.after prelude []
  rw [readRules_style inPrelude, List.append_nil]
  by_cases curly : ∃ n ∈ rest.head?, n.isCurly = true
  · obtain ⟨opener, contents, inner, rest, rfl⟩ := curly_head curly
    have opening : opener.kind = .opening .curly := atEnd.nodes.1.isCurly_iff.mp rfl
    have fewer : (Node.listTokens contents).length < size := by
      simp only [Node.listTokens_append, Node.listTokens, Node.tokens, List.length_append, List.length_cons] at small
      omega
    have inside := Node.AreNested.ne_end prelude (Node.areNested_append.mp h.nodes).1
    let names := Css.selectors n.line prelude.reverse
    have named := atEnd.after [] names.issues
    have body := lists.declarations named.inside fewer []
    refine ⟨prelude ++ [.block (.bracket .curly) opener contents inner], rest,
      some ⟨n.line, names.items, (readDeclarations (stop.ofCloser inner) .nothing contents).items⟩,
      names.issues ++ (readDeclarations (stop.ofCloser inner) .nothing contents).issues, by simp, by simp, .succ ?_, ?_⟩
    · simp only [styleRule]
      refine .bind (.of rfl) ?_
      rw [line]
      refine .bind (.call read (Nat.le_add_right _ _)) ?_
      refine .bind (.of rfl) ?_
      refine .bind (.of (peek_ahead atEnd.ahead)) ?_
      simp only [Node.listTokens, Node.tokens, List.cons_append, List.head?_cons, Option.map_some, opening, if_true]
      refine .bind (.of (selectorsBetween_ahead spelled h.split inside n.line)) ?_
      refine .bind (.of (next_ahead named.ahead)) ?_
      refine .bind (.call body (Nat.le_add_right _ _)) ?_
      refine .bind (.of (nextIf_closer (named.inside.ahead.after _) (fun t same => (named.inside.closes t same).2)
        named.inside.ends)) ?_
      simpa [Node.listTokens, Node.tokens, Node.listTokens_append] using Comes.done _ _
    · rw [readRules_styleBlock rfl]
      simp [readStyleBlock, names, Reading.discard, Reading.item, Reading.mk_append]
  · cases rest with
    | cons m rest => exact absurd ⟨m, rfl, stopped m rfl⟩ curly
    | nil =>
        rw [List.append_nil] at first
        refine ⟨prelude, [], none, [⟨.noBlock, stop.line⟩], rfl, (fun none => by rw [none] at first; cases first),
          .succ ?_, rfl⟩
        simp only [styleRule]
        refine .bind (.of rfl) ?_
        refine .bind (.call read (Nat.le_add_right _ _)) ?_
        refine .bind (.of rfl) ?_
        refine .bind (.of (peek_ahead atEnd.ahead)) ?_
        have noBlock :
            (Node.listTokens [] ++ (closer.toList ++ behind)).head?.map Token.kind ≠ some (.opening .curly) :=
          head?_kind_ne (atEnd.first_ne (by decide) (by decide) fun m hm => by cases hm)
        simp only [noBlock, if_false]
        refine .bind (.of (report_ahead atEnd.ahead _)) ?_
        rw [atEnd.line_next]
        simpa [Ending.next] using Comes.done _ _

/-! Lists of rules, by what stands first in them. -/

theorem ruleList_end (h : Listed input nested stop closer behind c []) (rules : List Rule) :
    ReadsRuleList nested stop closer [] c rules (ruleList input nested rules) := by
  apply Comes.succ
  simp only [ruleList]
  refine .bind (.of (peek_ahead h.ahead)) ?_
  cases closer with
  | some t =>
      obtain ⟨rfl, kind⟩ := h.closes t rfl
      have closed : stop.closed = true := h.closed
      have here : input.Ahead c (t :: behind) := h.ahead
      simp only [Node.listTokens, Option.toList_some, List.nil_append, List.cons_append, List.head?_cons,
        Option.map_some, kind, reduceCtorEq, if_false, if_true]
      refine .bind (.round (.of (next_ahead here)) (Nat.lt_succ_self _)) ?_
      simpa [readRules, endOfRules, closed] using Comes.done _ _
  | none =>
      have here : input.Ahead c behind := h.ahead
      have line : input.lineOf behind = stop.line := h.line
      have unclosed : stop.closed = false := h.closed
      have reported := reportIf_ahead here nested .unclosedGroup
      simp only [Node.listTokens, Option.toList_none, List.nil_append]
      cases first : behind.head? with
      | none =>
          refine .bind (.of reported) ?_
          cases nested <;> simpa [readRules, endOfRules, unclosed, line, Reading.issue] using Comes.done _ _
      | some t =>
          simp only [Option.map_some, h.ends rfl t first, if_true]
          refine .bind (.of reported) ?_
          cases nested <;> simpa [readRules, endOfRules, unclosed, line, Reading.issue] using Comes.done _ _

/-- What is left of a list of rules is read as a list of its own. -/
theorem ruleList_goesOn (lists : ListsRead input size) {part rest : List Node} {items : List Rule} {issues : List Issue}
    (h : Listed input nested stop closer behind c (part ++ rest))
    (small : (Node.listTokens (part ++ rest)).length < size + 1) (some : part ≠ [])
    (same : readRules nested stop .nothing (part ++ rest) =
      ⟨items, issues⟩ ++ readRules nested stop .nothing rest) (rules : List Rule) :
    Comes (ruleList input nested (rules ++ items)) (c.after (Node.listTokens part) issues)
      (rules ++ (readRules nested stop .nothing (part ++ rest)).items)
      (c.after (Node.listTokens (part ++ rest) ++ closer.toList)
        (readRules nested stop .nothing (part ++ rest)).issues) := by
  have fewer : (Node.listTokens rest).length < size := by
    have := length_listTokens_pos some
    rw [Node.listTokens_append, List.length_append] at small
    omega
  rw [same]
  simpa [ReadsRuleList, Node.listTokens_append] using lists.rules (h.after part issues) fewer (rules ++ items)

section
variable {t : Token} {n : Node}

/-- A token that adds nothing and begins nothing. -/
theorem ruleList_passes (lists : ListsRead input size) (h : Listed input nested stop closer behind c (.leaf t :: ns))
    (small : (Node.listTokens (.leaf t :: ns)).length < size + 1)
    (step : ruleStep nested stop (stop.next ns) .nothing (.leaf t) = ({}, .nothing)) (rules : List Rule) :
    ReadsRuleList nested stop closer (.leaf t :: ns) c rules
      (fun fuel => do let _ ← round (next input); ruleList input nested rules fuel) := by
  have same : readRules nested stop .nothing ([.leaf t] ++ ns) = ⟨[], []⟩ ++ readRules nested stop .nothing ns := by
    rw [List.singleton_append, readRules_cons, step]
  refine .bind (.round (.of (next_ahead h.ahead)) (Nat.lt_succ_self _)) ?_
  simpa [Node.listTokens, Node.tokens] using ruleList_goesOn lists h small (List.cons_ne_nil _ _) same rules

theorem ruleList_strayBrace (lists : ListsRead input size) (h : Listed input false stop closer behind c (.leaf t :: ns))
    (small : (Node.listTokens (.leaf t :: ns)).length < size + 1) (kind : t.kind = .closing .curly)
    (rules : List Rule) :
    ReadsRuleList false stop closer (.leaf t :: ns) c rules (fun fuel => do
      let _ ← round (next input)
      let _ ← report input .strayBrace
      ruleList input false rules fuel) := by
  have behindBrace := h.after [.leaf t] []
  have same : readRules false stop .nothing ([.leaf t] ++ ns) =
      ⟨[], [⟨.strayBrace, stop.next ns⟩]⟩ ++ readRules false stop .nothing ns := by
    rw [List.singleton_append, readRules_cons, ruleStep, Node.kind?, kind]
    rfl
  refine .bind (.round (.of (next_ahead h.ahead)) (Nat.lt_succ_self _)) ?_
  refine .bind (.of (report_ahead behindBrace.ahead _)) ?_
  rw [behindBrace.line_next]
  simpa [Node.listTokens, Node.tokens] using ruleList_goesOn lists h small (List.cons_ne_nil _ _) same rules

theorem ruleList_atRule (spelled : input.Spelled) (lists : ListsRead input size)
    (h : Listed input nested stop closer behind c (.leaf t :: ns))
    (small : (Node.listTokens (.leaf t :: ns)).length < size + 1) {name : String} (kind : t.kind = .atKeyword name)
    (rules : List Rule) :
    ReadsRuleList nested stop closer (.leaf t :: ns) c rules (fun fuel => do
      let rule ← round (call (atRule input nested fuel))
      ruleList input nested (rules ++ rule.toList) fuel) := by
  obtain ⟨part, rest, rule, issues, rfl, read, same, -⟩ :=
    atRule_ahead spelled lists kind h (Nat.lt_of_succ_lt_succ small)
  have begins : readRules nested stop .nothing (.leaf t :: part ++ rest) =
      ⟨[rule], issues⟩ ++ readRules nested stop .nothing rest := by
    rw [← same, List.cons_append, readRules_cons, ruleStep, Node.kind?, kind]
    rfl
  refine .bind (.round (.call read (Nat.le_add_right _ _)) (Nat.lt_add_of_pos_right (Nat.succ_pos _))) ?_
  simpa [Node.listTokens, Node.tokens] using ruleList_goesOn lists h small (List.cons_ne_nil _ _) begins rules

theorem ruleList_styleRule (spelled : input.Spelled) (lists : ListsRead input size)
    (h : Listed input nested stop closer behind c (n :: ns)) (small : (Node.listTokens (n :: ns)).length < size + 1)
    (begins : readRules nested stop .nothing (n :: ns) = readRules nested stop (.style n.line []) (n :: ns))
    (rules : List Rule) :
    ReadsRuleList nested stop closer (n :: ns) c rules (fun fuel => do
      let rule ← round (call (styleRule input nested fuel))
      ruleList input nested (rules ++ (rule.map Rule.style).toList) fuel) := by
  obtain ⟨part, rest, rule, issues, parts, some, read, same⟩ := styleRule_ahead spelled lists rfl h small
  rw [← begins] at same
  rw [parts] at h small same ⊢
  have forward := length_listTokens_pos some
  refine .bind (.round (.call read (Nat.le_add_right _ _)) (Nat.lt_add_of_pos_right forward)) ?_
  exact ruleList_goesOn lists h small some same rules

end

theorem ruleList_ahead (spelled : input.Spelled) (lists : ListsRead input size)
    (h : Listed input nested stop closer behind c ns) (small : (Node.listTokens ns).length < size + 1)
    (rules : List Rule) :
    ReadsRuleList nested stop closer ns c rules (ruleList input nested rules) := by
  cases ns with
  | nil => exact ruleList_end h rules
  | cons n ns =>
      apply Comes.succ
      simp only [ruleList]
      refine .bind (.of (peek_ahead h.ahead)) ?_
      have isNode := h.nodes.1
      have notEnd := isNode.first_ne_end
      have first : (Node.listTokens (n :: ns) ++ (closer.toList ++ behind)).head? = some n.first := by
        rw [Node.listTokens, List.append_assoc, Node.head?_tokens]
      simp only [first, Option.map_some, notEnd, if_false]
      by_cases white : n.first.kind = .whitespace
      · obtain ⟨t, rfl⟩ := isNode.leaf_of_kind white rfl
        simp only [white, if_true]
        exact ruleList_passes lists h small (by rw [ruleStep, (isNode.kind?_iff rfl).mpr white]) rules
      by_cases brace : n.first.kind = .closing .curly
      · obtain ⟨t, rfl⟩ := isNode.leaf_of_kind brace rfl
        obtain rfl : nested = false := by
          cases nested with
          | false => rfl
          | true => exact absurd brace isNode.first_ne_closing
        simp only [brace, reduceCtorEq, Bool.false_eq_true, if_false, if_true]
        exact ruleList_strayBrace lists h small brace rules
      by_cases mark : (n.first.kind = .commentOpen ∨ n.first.kind = .commentClose) ∧ nested = false
      · obtain ⟨t, rfl⟩ : ∃ t, n = .leaf t :=
          mark.1.elim (fun kind => isNode.leaf_of_kind kind rfl) fun kind => isNode.leaf_of_kind kind rfl
        have step : ruleStep nested stop (stop.next ns) .nothing (.leaf t) = ({}, .nothing) := by
          obtain ⟨kind | kind, outer⟩ := mark <;> rw [ruleStep, (isNode.kind?_iff rfl).mpr kind, outer] <;> rfl
        simp only [white, brace, if_pos mark, if_false]
        exact ruleList_passes lists h small step rules
      by_cases keyword : n.first.kind.isAtKeyword = true
      · obtain ⟨name, kind⟩ := TokenKind.eq_atKeyword keyword
        obtain ⟨t, rfl⟩ := isNode.leaf_of_kind kind rfl
        simp only [white, brace, if_neg mark, keyword, if_false, if_true]
        exact ruleList_atRule spelled lists h small kind rules
      · have notKeyword (name : String) : n.kind? ≠ some (.atKeyword name) := by
          rw [Ne, isNode.kind?_iff rfl]
          exact fun same => keyword (by rw [same]; rfl)
        have begins : readRules nested stop .nothing (n :: ns) = readRules nested stop (.style n.line []) (n :: ns) :=
          readRules_begins (mt (isNode.kind?_iff rfl).mp white) notKeyword (mt (isNode.kind?_iff rfl).mp brace)
            (by rwa [isNode.kind?_iff rfl, isNode.kind?_iff rfl])
        simp only [white, brace, if_neg mark, keyword, Bool.false_eq_true, if_false]
        exact ruleList_styleRule spelled lists h small begins rules

/-! Lists of declarations, by what stands first in them. -/

theorem declarationList_end (h : Listed input true stop closer behind c []) (declarations : List Declaration) :
    ReadsDeclarationList stop [] c declarations (declarationList input declarations) := by
  have same : ReadsDeclarationList stop [] c declarations fun _ => pure declarations := by
    simpa [ReadsDeclarationList, readDeclarations, Node.listTokens] using Comes.done declarations c
  apply Comes.succ
  simp only [declarationList]
  refine .bind (.of (peek_ahead h.ahead)) ?_
  cases closer with
  | some t =>
      simp only [Node.listTokens, Option.toList_some, List.nil_append, List.cons_append, List.head?_cons,
        Option.map_some, (h.closes t rfl).2, or_true, if_true]
      exact same
  | none =>
      simp only [Node.listTokens, Option.toList_none, List.nil_append]
      cases first : behind.head? with
      | none => exact same
      | some t =>
          simp only [Option.map_some, h.ends rfl t first, true_or, if_true]
          exact same

/-- What is left of a list of declarations is read as a list of its own. -/
theorem declarationList_goesOn (lists : ListsRead input size) {part rest : List Node} {items : List Declaration}
    {issues : List Issue} (h : Listed input true stop closer behind c (part ++ rest))
    (small : (Node.listTokens (part ++ rest)).length < size + 1) (some : part ≠ [])
    (same : readDeclarations stop .nothing (part ++ rest) = ⟨items, issues⟩ ++ readDeclarations stop .nothing rest)
    (declarations : List Declaration) :
    Comes (declarationList input (declarations ++ items)) (c.after (Node.listTokens part) issues)
      (declarations ++ (readDeclarations stop .nothing (part ++ rest)).items)
      (c.after (Node.listTokens (part ++ rest)) (readDeclarations stop .nothing (part ++ rest)).issues) := by
  have fewer : (Node.listTokens rest).length < size := by
    have := length_listTokens_pos some
    rw [Node.listTokens_append, List.length_append] at small
    omega
  rw [same]
  simpa [ReadsDeclarationList, Node.listTokens_append] using
    lists.declarations (h.after part issues) fewer (declarations ++ items)

section
variable {t : Token} {n : Node}

/-- White space or a semicolon between declarations. -/
theorem declarationList_passes (lists : ListsRead input size)
    (h : Listed input true stop closer behind c (.leaf t :: ns))
    (small : (Node.listTokens (.leaf t :: ns)).length < size + 1)
    (step : declarationStep stop .nothing (.leaf t) = ({}, .nothing)) (declarations : List Declaration) :
    ReadsDeclarationList stop (.leaf t :: ns) c declarations
      (fun fuel => do let _ ← round (next input); declarationList input declarations fuel) := by
  have same : readDeclarations stop .nothing ([.leaf t] ++ ns) = ⟨[], []⟩ ++ readDeclarations stop .nothing ns := by
    rw [List.singleton_append, readDeclarations_cons, step]
  refine .bind (.round (.of (next_ahead h.ahead)) (Nat.lt_succ_self _)) ?_
  simpa [Node.listTokens, Node.tokens] using
    declarationList_goesOn lists h small (List.cons_ne_nil _ _) same declarations

/-- An at-rule among declarations is left out. -/
theorem declarationList_atRule (spelled : input.Spelled) (lists : ListsRead input size)
    (h : Listed input true stop closer behind c (.leaf t :: ns))
    (small : (Node.listTokens (.leaf t :: ns)).length < size + 1) {name : String} (kind : t.kind = .atKeyword name)
    (declarations : List Declaration) :
    ReadsDeclarationList stop (.leaf t :: ns) c declarations (fun fuel => do
      let _ ← round (call (atRule input true fuel))
      declarationList input declarations fuel) := by
  obtain ⟨part, rest, rule, issues, rfl, read, -, same⟩ :=
    atRule_ahead spelled lists kind h (Nat.lt_of_succ_lt_succ small)
  have begins : readDeclarations stop .nothing (.leaf t :: part ++ rest) =
      ⟨[], issues⟩ ++ readDeclarations stop .nothing rest := by
    rw [← same, List.cons_append, readDeclarations_cons, declarationStep, Node.kind?, kind]
    rfl
  refine .bind (.round (.call read (Nat.le_add_right _ _)) (Nat.lt_add_of_pos_right (Nat.succ_pos _))) ?_
  simpa [Node.listTokens, Node.tokens] using
    declarationList_goesOn lists h small (List.cons_ne_nil _ _) begins declarations

theorem declarationList_declaration (spelled : input.Spelled) (lists : ListsRead input size)
    (h : Listed input true stop closer behind c (.leaf t :: ns))
    (small : (Node.listTokens (.leaf t :: ns)).length < size + 1) {name : String} (kind : t.kind = .ident name)
    (declarations : List Declaration) :
    ReadsDeclarationList stop (.leaf t :: ns) c declarations (fun fuel => do
      let declaration ← round (call (declarationAt input fuel))
      declarationList input (declarations ++ declaration.toList) fuel) := by
  obtain ⟨part, rest, d, issues, rfl, read, same⟩ := declarationAt_ahead spelled kind h
  have begins : readDeclarations stop .nothing (.leaf t :: part ++ rest) =
      ⟨d.toList, issues⟩ ++ readDeclarations stop .nothing rest := by
    rw [← same, List.cons_append, readDeclarations_cons, declarationStep, Node.kind?, kind]
    rfl
  refine .bind (.round (.call read (Nat.le_add_right _ _)) (Nat.lt_add_of_pos_right (Nat.succ_pos _))) ?_
  simpa [Node.listTokens, Node.tokens] using
    declarationList_goesOn lists h small (List.cons_ne_nil _ _) begins declarations

theorem declarationList_unexpected (lists : ListsRead input size) (h : Listed input true stop closer behind c (n :: ns))
    (small : (Node.listTokens (n :: ns)).length < size + 1)
    (step : declarationStep stop .nothing n = (.issue (.unexpected n.first.kind) n.line, .skipped))
    (declarations : List Declaration) :
    ReadsDeclarationList stop (n :: ns) c declarations (fun fuel => do
      let _ ← report input (.unexpected n.first.kind)
      let _ ← round (call (value input fuel))
      let _ ← call (valuesUntil input endsValue [] fuel)
      declarationList input declarations fuel) := by
  have reported := h.after [] [⟨.unexpected n.first.kind, n.line⟩]
  have forward := length_listTokens_pos (List.cons_ne_nil n [])
  obtain ⟨part, rest, values, rfl, read, same⟩ := (reported.after [n] []).skip
  have begins : readDeclarations stop .nothing (n :: part ++ rest) =
      ⟨[], [⟨.unexpected n.first.kind, n.line⟩]⟩ ++ readDeclarations stop .nothing rest := by
    rw [List.cons_append, readDeclarations_cons, step, same]
    rfl
  refine .bind (.of (report_ahead h.ahead _)) ?_
  rw [h.line_next]
  refine .bind (.round (.call reported.value (Nat.le_add_right _ _)) (Nat.lt_add_of_pos_right forward)) ?_
  refine .bind (.call read (Nat.le_add_right _ _)) ?_
  simpa [Node.listTokens] using declarationList_goesOn lists h small (List.cons_ne_nil _ _) begins declarations

end

theorem declarationList_ahead (spelled : input.Spelled) (lists : ListsRead input size)
    (h : Listed input true stop closer behind c ns) (small : (Node.listTokens ns).length < size + 1)
    (declarations : List Declaration) :
    ReadsDeclarationList stop ns c declarations (declarationList input declarations) := by
  cases ns with
  | nil => exact declarationList_end h declarations
  | cons n ns =>
      apply Comes.succ
      simp only [declarationList]
      refine .bind (.of (peek_ahead h.ahead)) ?_
      have isNode := h.nodes.1
      have further : ¬ (n.first.kind = .endOfSource ∨ n.first.kind = .closing .curly) := fun stop =>
        stop.elim isNode.first_ne_end isNode.first_ne_closing
      have first : (Node.listTokens (n :: ns) ++ (closer.toList ++ behind)).head? = some n.first := by
        rw [Node.listTokens, List.append_assoc, Node.head?_tokens]
      simp only [first, Option.map_some, if_neg further]
      by_cases between : n.first.kind = .whitespace ∨ n.first.kind = .semicolon
      · obtain ⟨t, rfl⟩ : ∃ t, n = .leaf t :=
          between.elim (fun kind => isNode.leaf_of_kind kind rfl) fun kind => isNode.leaf_of_kind kind rfl
        have step : declarationStep stop .nothing (.leaf t) = ({}, .nothing) := by
          rcases between with kind | kind <;> rw [declarationStep, (isNode.kind?_iff rfl).mpr kind]
        simp only [if_pos between]
        exact declarationList_passes lists h small step declarations
      by_cases keyword : n.first.kind.isAtKeyword = true
      · obtain ⟨name, kind⟩ := TokenKind.eq_atKeyword keyword
        obtain ⟨t, rfl⟩ := isNode.leaf_of_kind kind rfl
        simp only [if_neg between, keyword, if_true]
        exact declarationList_atRule spelled lists h small kind declarations
      by_cases property : n.first.kind.isIdent = true
      · obtain ⟨name, kind⟩ := TokenKind.eq_ident property
        obtain ⟨t, rfl⟩ := isNode.leaf_of_kind kind rfl
        simp only [if_neg between, keyword, property, Bool.false_eq_true, if_false, if_true]
        exact declarationList_declaration spelled lists h small kind declarations
      · have step : declarationStep stop .nothing n = (.issue (.unexpected n.first.kind) n.line, .skipped) := by
          rw [declarationStep]
          split
          · next kind => exact absurd (.inl ((isNode.kind?_iff rfl).mp kind)) between
          · next kind => exact absurd (.inr ((isNode.kind?_iff rfl).mp kind)) between
          · next kind => exact absurd (by rw [(isNode.kind?_iff rfl).mp kind]; rfl) keyword
          · next kind => exact absurd (by rw [(isNode.kind?_iff rfl).mp kind]; rfl) property
          · rfl
        simp only [if_neg between, keyword, property, Bool.false_eq_true, if_false]
        exact declarationList_unexpected lists h small step declarations

/-- Lists of all sizes are read: the lists in the blocks of a list, and the rest of it behind its first rule or
declaration, have fewer tokens. -/
theorem listsRead (spelled : input.Spelled) (size : Nat) : ListsRead input size := by
  induction size with
  | zero => exact ⟨fun _ small => absurd small (Nat.not_lt_zero _), fun _ small => absurd small (Nat.not_lt_zero _)⟩
  | succ size lists =>
      exact ⟨fun h small => ruleList_ahead spelled lists h small,
        fun h small => declarationList_ahead spelled lists h small⟩
end

/-! Style sheets. -/

theorem listed_sheet (input : Input) :
    Listed input false ⟨false, Stylesheet.endLine input.tokens⟩ none
      (input.tokens.dropWhile (·.kind ≠ .endOfSource)) {}
      (Node.ofTokens (input.tokens.takeWhile (·.kind ≠ .endOfSource))) := by
  have first : (input.tokens.dropWhile (·.kind ≠ .endOfSource)).head? = input.tokens.find? (·.kind = .endOfSource) := by
    rw [List.find?_eq_head?_dropWhile_not]
    simp only [ne_eq, decide_not]
  refine ⟨areNested_ofTokens fun t ht => by simpa using List.mem_takeWhile_imp ht, ⟨Nat.zero_le _, ?_⟩, rfl,
    (fun t none => by cases none), fun _ t ht => ?_, ?_⟩
  · rw [listTokens_ofTokens]
    exact List.takeWhile_append_dropWhile.symm
  · rw [first] at ht
    simpa using List.find?_some ht
  · rw [Option.toList_none, List.nil_append, Input.lineOf, first, Stylesheet.endLine]
    cases input.tokens.find? (·.kind = .endOfSource) with
    | some t => rfl
    | none => cases input.tokens.getLast? <;> rfl

theorem stylesheet_ahead (spelled : input.Spelled) : ∃ bound, ∀ fuel, bound ≤ fuel →
    stylesheet input fuel =
      .ok (Stylesheet.ofTokens input.tokens, (input.tokens.takeWhile (·.kind ≠ .endOfSource)).length) := by
  obtain ⟨bound, read⟩ := (listsRead spelled _).rules (listed_sheet input) (Nat.lt_succ_self _) []
  refine ⟨bound, fun fuel enough => ?_⟩
  rw [stylesheet, read fuel enough, listTokens_ofTokens]
  simp [Stylesheet.ofTokens, Cursor.after]

/-- Tokens of a source are where it has their texts. -/
theorem spelled_part {css : String} {ts : List Token} (part : ∀ t ∈ ts, t ∈ tokenize css) :
    Input.Spelled ⟨normalize css.toList, ts⟩ := by
  intro t ht
  obtain ⟨ahead, behind, whole, place⟩ := (tokensFrom_laid {} (normalize css.toList)).position (part t ht)
  have start : t.start = ahead.length := by simp [Token.start, place, Place.after]
  have stop : t.stop = ahead.length + t.lexeme.length := by rw [Token.stop, ← start]; rfl
  rw [whole, start, stop]
  exact ⟨by simp, slice_between _ _ _⟩

/-- Any part of the tokens of a style sheet is read to its end: with fuel enough no loop stands still, no call moves the
cursor back, and every index and every span is inside the tokens and the source. What is read is the style sheet that
the nodes make up, and the cursor is behind the last token or at the mark that ends the source. -/
theorem stylesheet_completes (css : String) (start count : Nat) :
    let ts := ((tokenize css).drop start).take count
    ∃ bound position, (∀ fuel, bound ≤ fuel →
        stylesheet ⟨normalize css.toList, ts⟩ fuel = .ok (Stylesheet.ofTokens ts, position)) ∧
      (position = ts.length ∨ ∃ t, ts[position]? = some t ∧ t.kind = .endOfSource) := by
  intro ts
  have spelled : Input.Spelled ⟨normalize css.toList, ts⟩ :=
    spelled_part fun t ht => List.mem_of_mem_drop (List.mem_of_mem_take ht)
  obtain ⟨bound, read⟩ := stylesheet_ahead spelled
  refine ⟨bound, _, read, ?_⟩
  have ends := (listed_sheet ⟨normalize css.toList, ts⟩).ends rfl
  have parts : ts.takeWhile (·.kind ≠ .endOfSource) ++ ts.dropWhile (·.kind ≠ .endOfSource) = ts :=
    List.takeWhile_append_dropWhile
  cases rest : ts.dropWhile (·.kind ≠ .endOfSource) with
  | nil =>
      rw [rest, List.append_nil] at parts
      exact .inl (congrArg List.length parts)
  | cons t behind =>
      refine .inr ⟨t, ?_, ends t (by rw [rest]; rfl)⟩
      rw [rest] at parts
      conv_lhs => arg 1; rw [← parts]
      simp

end Routine
end StyleAudit.Css
