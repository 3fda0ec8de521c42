import StyleAudit.Proofs.Outlines
/-!
Lines in a style sheet. Every rule and every declaration is on the line of the token it starts with, and these tokens
stand in the source in the order of the rules; the lines of the issues never fall either, as reading goes on.
-/
namespace StyleAudit.Css

/-! The lines of a style sheet, each rule before its contents. -/

def StyleRule.lines (r : StyleRule) : List Nat := r.line :: r.declarations.map Declaration.line

mutual
def Rule.lines : Rule → List Nat
  | .style r => r.lines
  | .group line _ _ rules => line :: Rule.listLines rules
  | .keyframes line _ _ frames => line :: frames.flatMap StyleRule.lines
  | .descriptors line _ _ ds => line :: ds.map Declaration.line
  | .charset line _ | .imported line .. | .statement line .. => [line]

def Rule.listLines : List Rule → List Nat
  | [] => []
  | r :: rest => r.lines ++ Rule.listLines rest
end

theorem Rule.listLines_append (rules more : List Rule) :
    Rule.listLines (rules ++ more) = Rule.listLines rules ++ Rule.listLines more := by
  induction rules with
  | nil => rfl
  | cons r rules ih => rw [List.cons_append, Rule.listLines, Rule.listLines, ih, List.append_assoc]

namespace Clause

/-! The tokens that rules and declarations start with: the keyword of an at-rule, the first token of the selectors of a
style rule, the name of a property. -/

def declarationStarts : Clause → List Token
  | .declaration property .. => [property]
  | _ => []

def frameStarts : Clause → List Token
  | .style head opener body _ => start head opener :: body.flatMap declarationStarts
  | _ => []

mutual
def ruleStarts : Clause → List Token
  | .style head opener body _ => start head opener :: body.flatMap declarationStarts
  | .block keyword word _ _ body _ =>
    keyword :: (match BlockKind.ofName word.toLower with
      | .rules => listRuleStarts body
      | .keyframes => body.flatMap frameStarts
      | .declarations => body.flatMap declarationStarts)
  | .statement keyword .. => [keyword]
  | _ => []

def listRuleStarts : List Clause → List Token
  | [] => []
  | c :: cs => c.ruleStarts ++ listRuleStarts cs
end

theorem lines_declarations (cs : List Clause) :
    (cs.filterMap declaration?).map Declaration.line = (cs.flatMap declarationStarts).map Token.line := by
  induction cs with
  | nil => rfl
  | cons c cs ih =>
      cases c with
      | declaration property name space colon blank value =>
          have line : (Css.declaration name property.line value.reverse).line = property.line := by
            rw [Css.declaration]
            split <;> rfl
          simp [declaration?, declarationStarts, ih, line]
      | _ => exact ih

theorem lines_atRuleWithoutBlock (name : String) (line : Nat) (prelude : List Node) :
    (atRuleWithoutBlock name line prelude).style? = none ∧ (atRuleWithoutBlock name line prelude).lines = [line] := by
  rcases atRuleWithoutBlock_form name line prelude with ⟨_, same⟩ | ⟨_, _, same⟩ | same <;> rw [same] <;> exact ⟨rfl, rfl⟩

theorem lines_frames (cs : List Clause) :
    ((listRules cs).filterMap Rule.style?).flatMap StyleRule.lines = (cs.flatMap frameStarts).map Token.line := by
  induction cs with
  | nil => rfl
  | cons c cs ih =>
      cases c with
      | style head opener body closer =>
          simp [listRules, rule?, frameStarts, Rule.style?, StyleRule.lines, lines_declarations, ih]
      | block keyword word prelude opener body closer =>
          simp only [listRules, rule?]
          cases BlockKind.ofName word.toLower <;> exact ih
      | statement keyword word prelude semicolon =>
          simp only [listRules, rule?, Option.toList_some, List.singleton_append]
          rw [List.filterMap_cons_none (lines_atRuleWithoutBlock ..).1]
          exact ih
      | _ => exact ih

mutual
theorem lines_rule : ∀ c : Clause, Rule.listLines c.rule?.toList = c.ruleStarts.map Token.line
  | .style head opener body closer => by
      simp [rule?, ruleStarts, Rule.listLines, Rule.lines, StyleRule.lines, lines_declarations]
  | .block keyword word prelude opener body closer => by
      simp only [rule?, ruleStarts]
      cases BlockKind.ofName word.toLower with
      | rules => simp [Rule.listLines, Rule.lines, lines_rules body]
      | keyframes => simp [Rule.listLines, Rule.lines, lines_frames]
      | declarations => simp [Rule.listLines, Rule.lines, lines_declarations]
  | .statement keyword word prelude semicolon => by
      simp [rule?, ruleStarts, Rule.listLines, (lines_atRuleWithoutBlock ..).2]
  | .idle _ | .stray _ | .bare .. | .declaration .. | .noColon .. | .unexpected .. => rfl

theorem lines_rules : ∀ cs : List Clause, Rule.listLines (listRules cs) = (listRuleStarts cs).map Token.line
  | [] => rfl
  | c :: cs => by
      rw [listRules, Rule.listLines_append, lines_rule c, lines_rules cs, listRuleStarts, List.map_append]
end

/-! The tokens that rules start with, in the source. -/

theorem declarationStarts_sublist (c : Clause) : c.declarationStarts.Sublist (Node.listTokens c.nodes) := by
  cases c with
  | declaration property name space colon blank value =>
      rw [nodes, Node.listTokens]
      exact (List.nil_sublist _).cons_cons property
  | _ => exact List.nil_sublist _

theorem flatMap_sublist {f : Clause → List Token} (h : ∀ c, (f c).Sublist (Node.listTokens c.nodes))
    (cs : List Clause) : (cs.flatMap f).Sublist (Node.listTokens (listNodes cs)) := by
  induction cs with
  | nil => exact List.nil_sublist _
  | cons c cs ih =>
      rw [List.flatMap_cons, listNodes, Node.listTokens_append]
      exact (h c).append ih

/-- The start of a style rule and what starts in its block. -/
theorem styleStarts_sublist {inside : List Token} {body : List Clause} (h : inside.Sublist (Node.listTokens (listNodes body)))
    (head : List Node) (opener : Token) (closer : Option Token) :
    (start head opener :: inside).Sublist (Node.listTokens (Clause.style head opener body closer).nodes) := by
  have block : inside.Sublist (Node.listTokens (listNodes body) ++ closer.toList) := h.trans (List.sublist_append_left ..)
  rw [nodes, Node.listTokens_append, Node.listTokens, Node.tokens, Node.listTokens, List.append_nil]
  cases head with
  | nil => exact block.cons_cons opener
  | cons n head =>
      have first : (Node.listTokens (n :: head)).head? = some n.first := by
        rw [Node.listTokens, Node.head?_tokens]
      obtain ⟨rest, whole⟩ := List.head?_eq_some_iff.mp first
      rw [whole]
      exact ((block.cons opener).trans (List.sublist_append_right rest _)).cons_cons n.first

theorem frameStarts_sublist (c : Clause) : c.frameStarts.Sublist (Node.listTokens c.nodes) := by
  cases c with
  | style head opener body closer =>
      exact styleStarts_sublist (flatMap_sublist declarationStarts_sublist body) head opener closer
  | _ => exact List.nil_sublist _

mutual
theorem ruleStarts_sublist : ∀ c : Clause, c.ruleStarts.Sublist (Node.listTokens c.nodes)
  | .style head opener body closer =>
      styleStarts_sublist (flatMap_sublist declarationStarts_sublist body) head opener closer
  | .block keyword word prelude opener body closer => by
      have inside : (match BlockKind.ofName word.toLower with
          | .rules => listRuleStarts body
          | .keyframes => body.flatMap frameStarts
          | .declarations => body.flatMap declarationStarts).Sublist (Node.listTokens (listNodes body)) := by
        cases BlockKind.ofName word.toLower with
        | rules => exact listRuleStarts_sublist body
        | keyframes => exact flatMap_sublist frameStarts_sublist body
        | declarations => exact flatMap_sublist declarationStarts_sublist body
      simp only [ruleStarts, nodes, Node.listTokens, Node.listTokens_append, Node.tokens, List.append_nil,
        List.singleton_append]
      exact ((inside.trans (List.sublist_append_left ..)).cons opener |>.trans (List.sublist_append_right ..)).cons_cons keyword
  | .statement keyword word prelude semicolon => (List.nil_sublist _).cons_cons keyword
  | .idle _ | .stray _ | .bare .. | .declaration .. | .noColon .. | .unexpected .. => List.nil_sublist _

theorem listRuleStarts_sublist : ∀ cs : List Clause, (listRuleStarts cs).Sublist (Node.listTokens (listNodes cs))
  | [] => List.nil_sublist _
  | c :: cs => by
      rw [listRuleStarts, listNodes, Node.listTokens_append]
      exact (ruleStarts_sublist c).append (listRuleStarts_sublist cs)
end

end Clause

/-! Numbers that never fall. -/

/-- Numbers that never fall, and that lie between two bounds. -/
def Climbs (lo hi : Nat) : List Nat → Prop
  | [] => lo ≤ hi
  | n :: ns => lo ≤ n ∧ Climbs n hi ns

namespace Climbs
variable {lo mid hi : Nat} {ns ms : List Nat}

theorem bounds (h : Climbs lo hi ns) : lo ≤ hi ∧ ∀ n ∈ ns, lo ≤ n ∧ n ≤ hi := by
  induction ns generalizing lo with
  | nil => exact ⟨h, by simp⟩
  | cons n ns ih =>
      obtain ⟨upper, inside⟩ := ih h.2
      refine ⟨h.1.trans upper, fun m hm => ?_⟩
      rcases List.mem_cons.mp hm with rfl | later
      · exact ⟨h.1, upper⟩
      · exact ⟨h.1.trans (inside m later).1, (inside m later).2⟩

theorem pairwise (h : Climbs lo hi ns) : ns.Pairwise (· ≤ ·) := by
  induction ns generalizing lo with
  | nil => exact .nil
  | cons n ns ih => exact .cons (fun m hm => (h.2.bounds.2 m hm).1) (ih h.2)

theorem of_pairwise (order : ns.Pairwise (· ≤ ·)) (bounds : lo ≤ hi) (inside : ∀ n ∈ ns, lo ≤ n ∧ n ≤ hi) :
    Climbs lo hi ns := by
  induction ns generalizing lo with
  | nil => exact bounds
  | cons n ns ih =>
      obtain ⟨least, order⟩ := List.pairwise_cons.mp order
      exact ⟨(inside n List.mem_cons_self).1, ih order (inside n List.mem_cons_self).2
        fun m hm => ⟨least m hm, (inside m (List.mem_cons_of_mem n hm)).2⟩⟩

theorem append (h : Climbs lo mid ns) (later : Climbs mid hi ms) : Climbs lo hi (ns ++ ms) := by
  induction ns generalizing lo with
  | nil =>
      cases ms with
      | nil => exact le_trans h later
      | cons m ms => exact ⟨le_trans h later.1, later.2⟩
  | cons n ns ih => exact ⟨h.1, ih h.2⟩

/-- The first part ends where the second begins. -/
theorem split (h : Climbs lo hi (ns ++ ms)) : Climbs lo (ms.head?.getD hi) ns ∧ Climbs (ms.head?.getD hi) hi ms := by
  induction ns generalizing lo with
  | nil =>
      cases ms with
      | nil => exact ⟨h, le_refl hi⟩
      | cons m ms => exact ⟨h.1, le_refl m, h.2⟩
  | cons n ns ih => exact ⟨⟨h.1, (ih h.2).1⟩, (ih h.2).2⟩

theorem head (h : Climbs lo hi ns) : lo ≤ ns.head?.getD hi ∧ Climbs (ns.head?.getD hi) hi ns := by
  rw [← List.nil_append ns] at h
  exact h.split

theorem mono (h : Climbs lo hi ns) {lower higher : Nat} (hl : lower ≤ lo) (hh : hi ≤ higher) : Climbs lower higher ns := by
  induction ns generalizing lo lower with
  | nil => exact hl.trans (le_trans h hh)
  | cons n ns ih => exact ⟨hl.trans h.1, ih h.2 (le_refl n)⟩

end Climbs

/-- The lines of nodes, token by token. -/
def Node.lines (ns : List Node) : List Nat := (Node.listTokens ns).map Token.line

theorem Node.lines_append (ns ms : List Node) : Node.lines (ns ++ ms) = Node.lines ns ++ Node.lines ms := by
  rw [Node.lines, Node.listTokens_append, List.map_append]
  rfl

theorem Ending.next_eq (stop : Ending) (ns : List Node) : stop.next ns = (Node.lines ns).head?.getD stop.line := by
  cases ns with
  | nil => rfl
  | cons n ns =>
      rw [Node.lines, Node.listTokens, List.head?_map, Node.head?_tokens]
      rfl

/-- The lines of nodes never fall, from the line of the first to the line of the end. -/
def Ascends (stop : Ending) (ns : List Node) : Prop := Climbs (stop.next ns) stop.line (Node.lines ns)

namespace Ascends
variable {stop : Ending} {front rest contents : List Node}

theorem behind (h : Ascends stop (front ++ rest)) : stop.next (front ++ rest) ≤ stop.next rest ∧ Ascends stop rest := by
  rw [Ascends, Node.lines_append] at h
  have parts := h.split
  rw [← Ending.next_eq] at parts
  exact ⟨parts.1.bounds.1, parts.2⟩

/-- Inside of a block lines never fall either, and what is behind the block is not before its end. -/
theorem inside {around : Option Bracket} {last : Bool} {opening : Opening} {opener : Token} {closer : Option Token}
    (nested : Node.AreNested around last (.block opening opener contents closer :: rest))
    (h : Ascends stop (.block opening opener contents closer :: rest)) :
    opener.line ≤ (stop.ofCloser closer).next contents ∧ Ascends (stop.ofCloser closer) contents ∧
      (stop.ofCloser closer).line ≤ stop.next rest := by
  have whole : Node.lines (.block opening opener contents closer :: rest) =
      opener.line :: (Node.lines contents ++ (closer.toList.map Token.line ++ Node.lines rest)) := by
    simp [Node.lines, Node.listTokens, Node.tokens]
  rw [Ascends, whole] at h
  have parts := h.2.split
  suffices Climbs opener.line (stop.ofCloser closer).line (Node.lines contents) ∧
      (stop.ofCloser closer).line ≤ stop.next rest by
    have first := this.1.head
    rw [← Ending.next_eq] at first
    exact ⟨first.1, first.2, this.2⟩
  cases closer with
  | some t =>
      have behind : t.line ≤ (Node.lines rest).head?.getD stop.line := parts.2.2.head.1
      rw [← Ending.next_eq] at behind
      exact ⟨parts.1, behind⟩
  | none =>
      obtain ⟨⟨-, -, -, ends⟩, -⟩ := nested
      obtain ⟨-, alone⟩ := Bool.and_eq_true_iff.mp (ends rfl)
      obtain rfl := List.isEmpty_iff.mp alone
      exact ⟨parts.1, le_refl _⟩

end Ascends

namespace Clause

/-- What is reported of selectors is on the line of the rule. -/
theorem climbs_selectors (line : Nat) (nodes : List Node) :
    Climbs line line ((selectors line nodes).issues.map Issue.line) := by
  simp only [selectors]
  split
  · exact le_refl line
  · exact ⟨le_refl line, le_refl line⟩

theorem climbs_blockEnd (name : String) (inner : Ending) :
    Climbs inner.line inner.line ((blockEnd name inner).map Issue.line) := by
  simp only [blockEnd]
  split
  · exact le_refl _
  · exact ⟨le_refl _, le_refl _⟩
  · exact ⟨le_refl _, le_refl _⟩

mutual
theorem climbs_issues {around : Option Bracket} {last : Bool} {level : Level} {stop : Ending} {rest : List Node} :
    ∀ c : Clause, c.Fits level rest → Node.AreNested around last (c.nodes ++ rest) → Ascends stop (c.nodes ++ rest) →
      Climbs (stop.next (c.nodes ++ rest)) (stop.next rest) ((c.issues stop (stop.next rest)).map Issue.line)
  | .idle t, _, _, h | .statement .., _, _, h | .declaration .., _, _, h => h.behind.1
  | .stray t, _, _, h => ⟨h.behind.1, le_refl _⟩
  | .style head opener body closer, fit, nested, h => by
      rw [nodes, List.append_assoc, List.singleton_append] at nested h ⊢
      have blockNested := (Node.areNested_append.mp nested).2
      obtain ⟨opened, bodyAscends, ended⟩ := h.behind.2.inside blockNested
      have line : stop.next (head ++ .block (.bracket .curly) opener (listNodes body) closer :: rest) =
          (start head opener).line := by
        cases head <;> rfl
      have before : (start head opener).line ≤ opener.line := line ▸ h.behind.1
      have inside := climbs_listIssues body fit.2.2 blockNested.1.2.1 bodyAscends
      rw [issues, List.map_append, line]
      exact ((climbs_selectors _ _).mono (le_refl _) (before.trans opened)).append (inside.mono (le_refl _) ended)
  | .bare first head, fit, _, h => by
      obtain ⟨-, -, rfl⟩ := fit
      exact ⟨h.behind.1, le_refl _⟩
  | .block keyword word prelude opener body closer, fit, nested, h => by
      rw [nodes, List.cons_append, List.append_assoc, List.singleton_append, ← List.cons_append] at nested h ⊢
      have blockNested := (Node.areNested_append.mp nested).2
      obtain ⟨opened, bodyAscends, ended⟩ := h.behind.2.inside blockNested
      have inside := climbs_listIssues body fit.2.2 blockNested.1.2.1 bodyAscends
      rw [issues, List.map_append]
      exact (inside.mono (h.behind.1.trans opened) (le_refl _)).append ((climbs_blockEnd _ _).mono (le_refl _) ended)
  | .noColon property name space skipped, _, _, h => by
      rw [nodes, List.cons_append, List.append_assoc, ← List.cons_append] at h ⊢
      have ahead := h.behind
      rw [issues, ← next_append]
      exact ⟨ahead.1, ahead.2.behind.1⟩
  | .unexpected first skipped, _, _, h => ⟨le_refl _, h.behind.1⟩

theorem climbs_listIssues {around : Option Bracket} {last : Bool} {level : Level} {stop : Ending} :
    ∀ cs : List Clause, AllFit level cs → Node.AreNested around last (listNodes cs) → Ascends stop (listNodes cs) →
      Climbs (stop.next (listNodes cs)) stop.line ((listIssues stop cs).map Issue.line)
  | [], _, _, _ => le_refl _
  | c :: cs, fit, nested, h => by
      rw [listNodes] at nested h ⊢
      rw [listIssues, List.map_append]
      exact (climbs_issues c fit.1 nested h).append
        (climbs_listIssues cs fit.2 (Node.areNested_append.mp nested).2 h.behind.2)
end

end Clause

/-! The lines of a source. -/

theorem Laid.lines_ordered {place : Place} {text : List Char} {ts : List Token} (h : Laid place text ts) :
    ts.Pairwise fun s t => s.line ≤ t.line := by
  induction h with
  | stop final => exact List.pairwise_singleton _ _
  | @token place gap lexeme rest kind ts closed progress notEnd laid ih =>
      refine List.pairwise_cons.mpr ⟨fun t member => ?_, ih⟩
      obtain ⟨ahead, _, _, counted⟩ := laid.position member
      rw [Token.line, Token.line, counted]
      exact (Nat.le_add_right _ _).trans (Nat.le_add_right _ _)

theorem climbs_tokenize (css : String) :
    Climbs 1 (1 + (normalize css.toList).count '\n') ((tokenize css).map Token.line) := by
  have laid : Laid {} (normalize css.toList) (tokenize css) := tokensFrom_laid {} _
  refine Climbs.of_pairwise (List.pairwise_map.mpr laid.lines_ordered) (Nat.le_add_right _ _) fun n hn => ?_
  obtain ⟨t, member, rfl⟩ := List.mem_map.mp hn
  obtain ⟨ahead, behind, whole, place⟩ := laid.position member
  rw [Token.line, place, whole]
  exact ⟨Nat.le_add_right _ _, by simp [Place.after]⟩

theorem climbs_sourceNodes (css : String) : Climbs 1 (sourceEnd css).line (Node.lines (sourceNodes css)) := by
  have whole := climbs_tokenize css
  rw [tokenize_eq, List.map_append] at whole
  rw [line_sourceEnd]
  exact whole.split.1

/-- Lines in a style sheet are in the order of the source. Each rule and each declaration, in the order they are
written in, is on the line of the token it starts with; these lines never fall, the lines of the issues never fall from
one issue to the next, and all of them are lines of the source. -/
theorem ofText_lines (css : String) :
    (∃ cs, IsOutline css cs) ∧ ∀ cs, IsOutline css cs →
      Rule.listLines (Stylesheet.ofText css).rules = (Clause.listRuleStarts cs).map Token.line ∧
      (Clause.listRuleStarts cs).Sublist (tokenize css) ∧
      (Rule.listLines (Stylesheet.ofText css).rules).Pairwise (· ≤ ·) ∧
      ((Stylesheet.ofText css).issues.map Issue.line).Pairwise (· ≤ ·) ∧
      ∀ line ∈ Rule.listLines (Stylesheet.ofText css).rules ++ (Stylesheet.ofText css).issues.map Issue.line,
        1 ≤ line ∧ line ≤ 1 + (normalize css.toList).count '\n' := by
  refine ⟨exists_outline css, fun cs outline => ?_⟩
  have lines : Rule.listLines (Stylesheet.ofText css).rules = (Clause.listRuleStarts cs).map Token.line := by
    rw [outline.ofText]
    exact Clause.lines_rules cs
  have starts : (Clause.listRuleStarts cs).Sublist (tokenize css) := by
    rw [tokenize_eq, ← outline.nodes]
    exact (Clause.listRuleStarts_sublist cs).trans (List.sublist_append_left _ _)
  have ruleLines : (Rule.listLines (Stylesheet.ofText css).rules).Sublist ((tokenize css).map Token.line) := by
    rw [lines]
    exact starts.map Token.line
  have nodes := climbs_sourceNodes css
  have issues : Climbs 1 (1 + (normalize css.toList).count '\n') ((Stylesheet.ofText css).issues.map Issue.line) := by
    have ascends : Ascends (sourceEnd css) (Clause.listNodes cs) := by
      rw [outline.nodes, Ascends, Ending.next_eq]
      exact nodes.head.2
    have first : 1 ≤ (sourceEnd css).next (Clause.listNodes cs) := by
      rw [outline.nodes, Ending.next_eq]
      exact nodes.head.1
    have nested : Node.AreNested none true (Clause.listNodes cs) := outline.nodes ▸ areNested_sourceNodes css
    rw [outline.ofText, ← line_sourceEnd]
    exact (Clause.climbs_listIssues cs outline.fits nested ascends).mono first (le_refl _)
  refine ⟨lines, starts, (climbs_tokenize css).pairwise.sublist ruleLines, issues.pairwise, fun line member => ?_⟩
  rcases List.mem_append.mp member with rule | issue
  · exact (climbs_tokenize css).bounds.2 line (ruleLines.subset rule)
  · exact issues.bounds.2 line issue

theorem ofText_lines_group :
    let css := "@media x\x7b\na\x7bb:c\x7d\x7d"
    let body := [Clause.style [.leaf ⟨.ident "a", ⟨10, 2⟩, ['a']⟩] ⟨.opening .curly, ⟨11, 2⟩, ['\x7b']⟩
      [.declaration ⟨.ident "b", ⟨12, 2⟩, ['b']⟩ "b" [] ⟨.colon, ⟨13, 2⟩, [':']⟩ [] [.leaf ⟨.ident "c", ⟨14, 2⟩, ['c']⟩]]
      (some ⟨.closing .curly, ⟨15, 2⟩, ['\x7d']⟩)]
    let cs := [Clause.block ⟨.atKeyword "media", ⟨0, 1⟩, "@media".toList⟩ "media"
      [.leaf ⟨.whitespace, ⟨6, 1⟩, [' ']⟩, .leaf ⟨.ident "x", ⟨7, 1⟩, ['x']⟩] ⟨.opening .curly, ⟨8, 1⟩, ['\x7b']⟩
      (.idle ⟨.whitespace, ⟨9, 1⟩, ['\n']⟩ :: body) (some ⟨.closing .curly, ⟨16, 2⟩, ['\x7d']⟩)]
    IsOutline css cs ∧ Rule.listLines (Stylesheet.ofText css).rules = [1, 2, 2] := by
  intro css body cs
  have tokens : tokenize css = Node.listTokens (Clause.listNodes cs) ++ [⟨.endOfSource, ⟨17, 2⟩, []⟩] := by
    decide +kernel
  have level : Level.ofName "media".toLower = .rules true := by decide +kernel
  have fits : Clause.AllFit (.rules false) cs := by
    simp [cs, body, Clause.AllFit, Clause.Fits, level, Level.idle, Level.BeginsStyle, Clause.Blank, Clause.UpToSemicolon,
      Clause.listNodes, InPrelude, Node.kind?, Node.isCurly]
  have outline : IsOutline css cs := by
    refine ⟨fits, ?_⟩
    rw [sourceNodes, tokens]
    rfl
  have starts : (Clause.listRuleStarts cs).map Token.line = [1, 2, 2] := by decide +kernel
  exact ⟨outline, ((ofText_lines css).2 cs outline).1.trans starts⟩

end StyleAudit.Css
