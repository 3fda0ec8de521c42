import StyleAudit.Proofs.Excerpts
import StyleAudit.Proofs.Outlines
import StyleAudit.Proofs.TokenRows
/-!
Selectors told by the nodes of a selector list. The list is cut at the commas that are nodes of their own; a comma in
brackets is inside of a node. Counting brackets along the tokens finds the same commas, wherever each closing bracket
belongs to the bracket that was opened last.
-/
namespace StyleAudit.Css

/-- Each closing bracket is the one that the innermost open bracket awaits. -/
def Matches (awaited : List Bracket) : List Token → Prop
  | [] => True
  | t :: rest =>
    match t.kind.opens? with
    | some opening => Matches (opening.closes :: awaited) rest
    | none =>
      if t.kind.closesBlock then ∃ b outer, awaited = b :: outer ∧ t.kind = .closing b ∧ Matches outer rest
      else Matches awaited rest

namespace Node

mutual
/-- Closing brackets stand only at the end of blocks. -/
def IsBalanced : Node → Prop
  | .leaf t => t.kind.closesBlock = false
  | .block _ _ contents _ => AreBalanced contents

def AreBalanced : List Node → Prop
  | [] => True
  | n :: rest => n.IsBalanced ∧ AreBalanced rest
end

mutual
/-- Where closing brackets match, nothing but the blocks themselves takes them up. -/
theorem isBalanced_of_matches : ∀ (n : Node) {around : Option Bracket} {awaited : List Bracket} {rest : List Token},
    n.IsNested around false → (∀ b, awaited.head? = some b → around = some b) →
      Matches awaited (n.tokens ++ rest) → n.IsBalanced ∧ Matches awaited rest
  | .leaf t, around, awaited, rest, nested, same, matched => by
      have opens : t.kind.opens? = none := nested.1
      rw [tokens, List.singleton_append, Matches, opens] at matched
      dsimp only at matched
      split at matched
      · obtain ⟨b, outer, rfl, kind, -⟩ := matched
        exact absurd kind (nested.2.2 b (same b rfl))
      · next other => exact ⟨Bool.eq_false_iff.mpr other, matched⟩
  | .block opening opener contents none, _, _, _, nested, _, _ => absurd (nested.2.2.2 rfl) Bool.false_ne_true
  | .block opening opener contents (some t), _, awaited, rest, nested, _, matched => by
      obtain ⟨opens, within, closes, -⟩ := nested
      rw [tokens, List.cons_append, Matches, opens, List.append_assoc] at matched
      have top (b : Bracket) (same : (opening.closes :: awaited).head? = some b) : some opening.closes = some b := same
      obtain ⟨inside, matched⟩ := areBalanced_of_matches contents within top matched
      have kind := closes t rfl
      rw [Option.toList_some, List.singleton_append, Matches, kind] at matched
      obtain ⟨_, _, same, -, matched⟩ := matched
      obtain ⟨-, rfl⟩ := List.cons.inj same
      exact ⟨inside, matched⟩

theorem areBalanced_of_matches : ∀ (ns : List Node) {around : Option Bracket} {awaited : List Bracket}
    {rest : List Token}, AreNested around false ns → (∀ b, awaited.head? = some b → around = some b) →
      Matches awaited (listTokens ns ++ rest) → AreBalanced ns ∧ Matches awaited rest
  | [], _, _, _, _, _, matched => ⟨trivial, matched⟩
  | n :: ns, around, awaited, rest, nested, same, matched => by
      rw [listTokens, List.append_assoc] at matched
      obtain ⟨first, matched⟩ := isBalanced_of_matches n nested.1 same matched
      obtain ⟨later, matched⟩ := areBalanced_of_matches ns nested.2 same matched
      exact ⟨⟨first, later⟩, matched⟩
end

end Node

/-! Counting brackets. -/

mutual
/-- In brackets no comma cuts. -/
theorem splitSelectors_node (depth : Nat) : ∀ (n : Node) {around : Option Bracket} (rest : List Token),
    n.IsNested around false → n.IsBalanced → (depth = 0 → n.kind? ≠ some .comma) →
      splitSelectors depth (n.tokens ++ rest) = (splitSelectors depth rest).modifyHead (n.tokens ++ ·)
  | .leaf t, _, rest, nested, balanced, apart => by
      have opens : t.kind.opensBlock = false := by rw [TokenKind.opensBlock, nested.1]; rfl
      have closes : t.kind.closesBlock = false := balanced
      have inside : ¬ (t.kind = .comma ∧ depth = 0) := fun ⟨comma, top⟩ => apart top (congrArg some comma)
      rw [Node.tokens, List.singleton_append, splitSelectors_cons inside, opens, closes]
      rfl
  | .block _ _ _ none, _, _, nested, _, _ => absurd (nested.2.2.2 rfl) Bool.false_ne_true
  | .block opening opener contents (some t), _, rest, nested, balanced, _ => by
      obtain ⟨opened, within, closes, -⟩ := nested
      have opens : opener.kind.opensBlock = true := by rw [TokenKind.opensBlock, opened]; rfl
      have kind : t.kind = .closing opening.closes := closes t rfl
      have openerApart : ¬ (opener.kind = .comma ∧ depth = 0) := fun ⟨comma, _⟩ => TokenKind.ne_of_opens opened rfl comma
      have closerApart : ¬ (t.kind = .comma ∧ depth + 1 = 0) := fun ⟨_, top⟩ => Nat.succ_ne_zero depth top
      rw [Node.tokens, List.cons_append, splitSelectors_cons openerApart, if_pos opens, List.append_assoc,
        splitSelectors_inside depth contents _ within balanced, Option.toList_some, List.singleton_append,
        splitSelectors_cons closerApart, kind]
      simp only [TokenKind.opensBlock, TokenKind.opens?, TokenKind.closesBlock, List.modifyHead_modifyHead,
        Option.isSome_none, Bool.false_eq_true, if_false, if_true, Nat.add_sub_cancel]
      congr 1
      funext selector
      simp
termination_by structural n => n

theorem splitSelectors_inside (depth : Nat) : ∀ (ns : List Node) {around : Option Bracket} (rest : List Token),
    Node.AreNested around false ns → Node.AreBalanced ns →
      splitSelectors (depth + 1) (Node.listTokens ns ++ rest) =
        (splitSelectors (depth + 1) rest).modifyHead (Node.listTokens ns ++ ·)
  | [], _, rest, _, _ => (congrFun List.modifyHead_id _).symm
  | n :: ns, _, rest, nested, balanced => by
      rw [Node.listTokens, List.append_assoc,
        splitSelectors_node (depth + 1) n _ nested.1 balanced.1 fun top => absurd top (Nat.succ_ne_zero depth),
        splitSelectors_inside depth ns rest nested.2 balanced.2, List.modifyHead_modifyHead]
      congr 1
      funext selector
      simp
termination_by structural ns => ns
end

/-- The nodes between the commas that are nodes of their own. -/
def segments (ns : List Node) : List (List Node) := ns.splitOnP fun n => n.kind? = some .comma

theorem splitSelectors_segments {around : Option Bracket} (ns : List Node) (nested : Node.AreNested around false ns)
    (balanced : Node.AreBalanced ns) :
    splitSelectors 0 (Node.listTokens ns) = (segments ns).map Node.listTokens := by
  induction ns with
  | nil => rfl
  | cons n ns ih =>
      have later := ih nested.2 balanced.2
      rw [segments] at later ⊢
      rw [Node.listTokens, List.splitOnP_cons_eq_if_modifyHead]
      by_cases comma : n.kind? = some .comma
      · obtain ⟨t, rfl, kind⟩ := leaf_of_kind? comma
        rw [if_pos (decide_eq_true comma), Node.tokens, List.singleton_append, splitSelectors, if_pos ⟨kind, rfl⟩, later]
        rfl
      · rw [if_neg (by simpa using comma), splitSelectors_node 0 n _ nested.1 balanced.1 fun _ => comma, later]
        cases List.splitOnP (fun n : Node => decide (n.kind? = some .comma)) ns with
        | nil => rfl
        | cons first more => rfl

/-! Texts of segments. -/

/-- The text of nodes as the style sheet keeps it. -/
def textOfNodes (ns : List Node) : String := textOfTokens (Node.listTokens ns)

/-- Behind a comma a text goes on as it would begin. -/
theorem compactFrom_behindComma (ts : List Token) (space space' : Bool) :
    compactFrom (some ',') space ts = compactFrom none space' ts := by
  induction ts generalizing space space' with
  | nil => rfl
  | cons t ts ih =>
      rw [compactFrom, compactFrom]
      split
      · exact ih true true
      · cases last : t.lexeme.getLast? with
        | none => simp [ih false false]
        | some c => simp

theorem compactFrom_comma {c : Token} (kind : c.kind = .comma) (lexeme : c.lexeme = [',']) (ts us : List Token)
    (last : Option Char) (space : Bool) :
    compactFrom last space (ts ++ c :: us) = compactFrom last space ts ++ ',' :: compactText us := by
  induction ts generalizing last space with
  | nil =>
      simp only [List.nil_append, compactFrom, kind, lexeme, compactText, ← compactFrom_behindComma us false false]
      simp
  | cons t ts ih =>
      rw [List.cons_append, compactFrom, compactFrom]
      split
      · exact ih last true
      · simp only [ih, List.append_assoc]

/-- The texts of the segments, with commas between them, are the text of the whole. -/
theorem textOfNodes_segments (ns : List Node)
    (commas : ∀ t ∈ Node.listTokens ns, t.kind = .comma → t.lexeme = [',']) :
    ",".intercalate ((segments ns).map textOfNodes) = textOfNodes ns := by
  generalize size : ns.length = m
  induction m using Nat.strongRecOn generalizing ns with
  | ind m ih =>
      subst size
      obtain ⟨first, rest, rfl, apart, stopped⟩ := exists_split (fun n : Node => decide (n.kind? = some .comma)) ns
      cases rest with
      | nil =>
          rw [List.append_nil, segments, List.splitOnP_eq_singleton apart, List.map_singleton]
          exact String.intercalate_singleton
      | cons n rest =>
          obtain ⟨c, rfl, kind⟩ := leaf_of_kind? (of_decide_eq_true (stopped n rfl))
          have later := ih rest.length (by simp; omega) rest
            (fun t ht => commas t (by simp [Node.listTokens_append, Node.listTokens, ht])) rfl
          have lexeme := commas c (by simp [Node.listTokens_append, Node.listTokens, Node.tokens]) kind
          have cut : segments (first ++ .leaf c :: rest) = first :: segments rest :=
            List.splitOnP_append_cons_of_forall_mem apart _ (stopped _ rfl) rest
          have joined : textOfNodes (first ++ .leaf c :: rest) = textOfNodes first ++ "," ++ textOfNodes rest := by
            apply String.toList_injective
            simp only [textOfNodes, textOfTokens, Node.listTokens_append, Node.listTokens, Node.tokens,
              List.singleton_append, compactText, compactFrom_comma kind lexeme, String.toList_append, String.toList_ofList]
            simp
          rw [cut, joined, ← later, List.map_cons]
          obtain ⟨next, more, same⟩ :=
            List.exists_cons_of_ne_nil (List.splitOnP_ne_nil (fun n : Node => decide (n.kind? = some .comma)) rest)
          rw [segments, same, List.map_cons, String.intercalate_cons_cons]

/-- The selectors of a rule, from the nodes of its selector list. -/
theorem selectors_segments {around : Option Bracket} {ns : List Node} (nested : Node.AreNested around false ns)
    (matched : Matches [] (Node.listTokens ns)) (line : Nat) :
    selectors line ns.reverse =
      ⟨((segments ns).map textOfNodes).filter (· ≠ ""),
        if "" ∈ (segments ns).map textOfNodes then [⟨.emptySelector, line⟩] else []⟩ := by
  rw [← List.append_nil (Node.listTokens ns)] at matched
  have balanced := (Node.areBalanced_of_matches ns nested (fun b none => by cases none) matched).1
  have texts : (splitSelectors 0 (Node.listTokens ns.reverse.reverse)).map (fun ts => String.ofList (compactText ts)) =
      (segments ns).map textOfNodes := by
    rw [List.reverse_reverse, splitSelectors_segments ns nested balanced, List.map_map]
    rfl
  simp only [selectors, texts]
  congr 1
  by_cases empty : "" ∈ (segments ns).map textOfNodes
  · rw [if_pos empty, if_neg]
    exact fun all => by simpa using List.length_filter_eq_length_iff.mp all "" empty
  · rw [if_neg empty, if_pos]
    refine List.length_filter_eq_length_iff.mpr fun text mem => decide_eq_true ?_
    rintro rfl
    exact empty mem

/-! The style rules of a style sheet. -/

mutual
/-- The style rules that a rule is or holds. -/
def Rule.styles : Rule → List StyleRule
  | .style r => [r]
  | .group _ _ _ rules => Rule.listStyles rules
  | .keyframes _ _ _ frames => frames
  | _ => []

def Rule.listStyles : List Rule → List StyleRule
  | [] => []
  | r :: rest => r.styles ++ Rule.listStyles rest
end

theorem Rule.listStyles_append (rules more : List Rule) :
    Rule.listStyles (rules ++ more) = Rule.listStyles rules ++ Rule.listStyles more := by
  induction rules with
  | nil => rfl
  | cons r rules ih => rw [List.cons_append, Rule.listStyles, Rule.listStyles, ih, List.append_assoc]

theorem Rule.mem_listStyles {rules : List Rule} {r : StyleRule} (h : .style r ∈ rules) : r ∈ Rule.listStyles rules := by
  obtain ⟨before, behind, rfl⟩ := List.append_of_mem h
  rw [Rule.listStyles_append]
  exact List.mem_append_right _ (List.mem_append_left _ List.mem_cons_self)

namespace Clause

/-- What is reported of the selectors of a rule. -/
def selectorIssues : Clause → List Issue
  | .style head opener _ _ => (selectors (start head opener).line head.reverse).issues
  | _ => []

mutual
/-- Every style rule is written somewhere in the outline. -/
theorem exists_style {r : StyleRule} : ∀ c : Clause, r ∈ Rule.listStyles c.rule?.toList →
    ∃ head opener body closer, Clause.style head opener body closer ∈ c.all ∧
      (Clause.style head opener body closer).rule? = some (.style r)
  | .style head opener body closer, mem => by
      obtain rfl := List.mem_singleton.mp (by simpa [rule?, Rule.listStyles, Rule.styles] using mem)
      exact ⟨head, opener, body, closer, mem_all _, rfl⟩
  | .block keyword word prelude opener body closer, mem => by
      have inside : r ∈ Rule.listStyles (listRules body) := by
        simp only [rule?] at mem
        cases kind : BlockKind.ofName word.toLower with
        | rules => simpa [kind, Rule.listStyles, Rule.styles] using mem
        | keyframes =>
            have frame : r ∈ (listRules body).filterMap Rule.style? := by
              simpa [kind, Rule.listStyles, Rule.styles] using mem
            obtain ⟨rule, member, same⟩ := List.mem_filterMap.mp frame
            cases rule with
            | style s => exact Rule.mem_listStyles (Option.some.inj same ▸ member)
            | _ => cases same
        | declarations => simp [kind, Rule.listStyles, Rule.styles] at mem
      obtain ⟨head, opener, body, closer, member, same⟩ := exists_style_list body inside
      exact ⟨head, opener, body, closer, List.mem_cons_of_mem _ member, same⟩
  | .statement keyword word prelude semicolon, mem => by
      have none : (atRuleWithoutBlock word.toLower keyword.line prelude.reverse).styles = [] := by
        rcases atRuleWithoutBlock_form word.toLower keyword.line prelude.reverse with
          ⟨_, same⟩ | ⟨_, _, same⟩ | same <;> rw [same] <;> rfl
      simp [rule?, Rule.listStyles, none] at mem
  | .idle _, mem | .stray _, mem | .bare .., mem | .declaration .., mem | .noColon .., mem | .unexpected .., mem =>
      (List.not_mem_nil mem).elim

theorem exists_style_list {r : StyleRule} : ∀ cs : List Clause, r ∈ Rule.listStyles (listRules cs) →
    ∃ head opener body closer, Clause.style head opener body closer ∈ listAll cs ∧
      (Clause.style head opener body closer).rule? = some (.style r)
  | [], mem => (List.not_mem_nil mem).elim
  | c :: cs, mem => by
      rw [listRules, Rule.listStyles_append] at mem
      rcases List.mem_append.mp mem with here | later
      · obtain ⟨head, opener, body, closer, member, same⟩ := exists_style c here
        exact ⟨head, opener, body, closer, List.mem_append_left _ member, same⟩
      · obtain ⟨head, opener, body, closer, member, same⟩ := exists_style_list cs later
        exact ⟨head, opener, body, closer, List.mem_append_right _ member, same⟩
end

theorem filter_selectors (line : Nat) (nodes : List Node) :
    (selectors line nodes).issues.filter (·.defect = .emptySelector) = (selectors line nodes).issues := by
  simp only [selectors]
  split <;> rfl

theorem filter_blockEnd (name : String) (inner : Ending) :
    (blockEnd name inner).filter (·.defect = .emptySelector) = [] := by
  simp only [blockEnd]
  split <;> rfl

mutual
/-- Empty selectors are reported of the selectors of style rules, in order, and of nothing else. -/
theorem filter_issues {stop : Ending} {next : Nat} : ∀ c : Clause,
    (c.issues stop next).filter (·.defect = .emptySelector) = c.all.flatMap selectorIssues
  | .style head opener body closer => by
      rw [issues, List.filter_append, filter_selectors, filter_listIssues body, all, List.flatMap_cons]
      rfl
  | .block keyword word prelude opener body closer => by
      rw [issues, List.filter_append, filter_blockEnd, filter_listIssues body, all, List.flatMap_cons, List.append_nil]
      rfl
  | .idle _ | .stray _ | .bare .. | .statement .. | .declaration .. | .noColon .. | .unexpected .. => rfl

theorem filter_listIssues {stop : Ending} : ∀ cs : List Clause,
    (listIssues stop cs).filter (·.defect = .emptySelector) = (listAll cs).flatMap selectorIssues
  | [] => rfl
  | c :: cs => by
      rw [listIssues, List.filter_append, filter_issues c, filter_listIssues cs, listAll, List.flatMap_append]
end

end Clause

/-- The selectors of the style rules of a source. Each style rule is written somewhere in the outline, and empty selectors
are reported of the style rules written there, in order. Where the closing brackets of a selector list match, its
selectors are the texts of the segments between the commas that are nodes of their own, without the empty ones, which are
reported once, on the line of the rule; and if none is empty the selectors with commas between them are the text of the
whole list. -/
theorem ofText_selectors (css : String) :
    (∃ cs, IsOutline css cs) ∧ ∀ cs, IsOutline css cs →
      (∀ r ∈ Rule.listStyles (Stylesheet.ofText css).rules, ∃ head opener body closer,
        Clause.style head opener body closer ∈ Clause.listAll cs ∧
          (Clause.style head opener body closer).rule? = some (.style r)) ∧
      (Stylesheet.ofText css).issues.filter (·.defect = .emptySelector) =
        (Clause.listAll cs).flatMap Clause.selectorIssues ∧
      ∀ head opener body closer, Clause.style head opener body closer ∈ Clause.listAll cs →
        Matches [] (Node.listTokens head) →
        ∃ r, (Clause.style head opener body closer).rule? = some (.style r) ∧
          r.selectors = ((segments head).map textOfNodes).filter (· ≠ "") ∧
          (Clause.style head opener body closer).selectorIssues =
            (if "" ∈ (segments head).map textOfNodes then [⟨.emptySelector, r.line⟩] else []) ∧
          ("" ∉ (segments head).map textOfNodes → ",".intercalate r.selectors = textOfNodes head) := by
  refine ⟨exists_outline css, fun cs outline => ⟨fun r mem => ?_, ?_, fun head opener body closer mem matched => ?_⟩⟩
  · rw [outline.ofText] at mem
    exact Clause.exists_style_list cs mem
  · rw [outline.ofText]
    exact Clause.filter_listIssues cs
  · have whole : Node.AreNested none true (Clause.listNodes cs) := outline.nodes ▸ areNested_sourceNodes css
    obtain ⟨⟨level, behind, around, last, fit, nested⟩, part⟩ := Clause.of_mem_listAll cs mem outline.fits whole
    rw [Clause.nodes, List.append_assoc] at nested
    have inside := (Node.areNested_append.mp nested).1
    rw [List.singleton_append, List.isEmpty_cons, Bool.and_false] at inside
    have commas : ∀ t ∈ Node.listTokens head, t.kind = .comma → t.lexeme = [','] := by
      intro t ht kind
      have member : t ∈ tokenize css := by
        rw [tokenize_eq, ← outline.nodes]
        refine List.mem_append_left _ (part t ?_)
        rw [Clause.nodes, Node.listTokens_append]
        exact List.mem_append_left _ ht
      obtain ⟨rest, read⟩ := exists_isRead member (by rw [kind]; decide)
      exact read.comma kind
    have split := selectors_segments inside matched (Clause.start head opener).line
    refine ⟨_, rfl, ?_, ?_, fun full => ?_⟩
    · rw [split]
    · rw [Clause.selectorIssues, split]
    · have all : ((segments head).map textOfNodes).filter (· ≠ "") = (segments head).map textOfNodes :=
        List.filter_eq_self.mpr fun text mem => decide_eq_true fun same => full (same ▸ mem)
      rw [split, all]
      exact textOfNodes_segments head commas

theorem ofText_selectors_function :
    let css := "a,:is(b,c),\x7b\x7d"
    let function := Node.block (.function "is") ⟨.function "is", ⟨3, 1⟩, "is(".toList⟩
      [.leaf ⟨.ident "b", ⟨6, 1⟩, ['b']⟩, .leaf ⟨.comma, ⟨7, 1⟩, [',']⟩, .leaf ⟨.ident "c", ⟨8, 1⟩, ['c']⟩]
      (some ⟨.closing .paren, ⟨9, 1⟩, [')']⟩)
    let head := [.leaf ⟨.ident "a", ⟨0, 1⟩, ['a']⟩, .leaf ⟨.comma, ⟨1, 1⟩, [',']⟩, .leaf ⟨.colon, ⟨2, 1⟩, [':']⟩, function,
      .leaf ⟨.comma, ⟨10, 1⟩, [',']⟩]
    let rule := Clause.style head ⟨.opening .curly, ⟨11, 1⟩, ['\x7b']⟩ [] (some ⟨.closing .curly, ⟨12, 1⟩, ['\x7d']⟩)
    IsOutline css [rule] ∧ rule ∈ Clause.listAll [rule] ∧ Matches [] (Node.listTokens head) ∧
      (segments head).map textOfNodes = ["a", ":is(b,c)", ""] ∧
      ∃ r, rule.rule? = some (.style r) ∧ r.selectors = ["a", ":is(b,c)"] ∧
        rule.selectorIssues = [⟨.emptySelector, r.line⟩] := by
  intro css function head rule
  have tokens : tokenize css = Node.listTokens (Clause.listNodes [rule]) ++ [⟨.endOfSource, ⟨13, 1⟩, []⟩] := by
    decide +kernel
  have fits : Clause.AllFit (.rules false) [rule] := by
    simp [rule, head, function, Clause.AllFit, Clause.Fits, Level.idle, Level.BeginsStyle, Node.kind?, Node.isCurly]
  have outline : IsOutline css [rule] := by
    refine ⟨fits, ?_⟩
    rw [sourceNodes, tokens]
    rfl
  have member : rule ∈ Clause.listAll [rule] := List.mem_cons_self
  have matched : Matches [] (Node.listTokens head) := by
    simp [head, function, Node.listTokens, Node.tokens, Matches, TokenKind.opens?, TokenKind.closesBlock, Opening.closes]
  have texts : (segments head).map textOfNodes = ["a", ":is(b,c)", ""] := by decide +kernel
  obtain ⟨-, -, found⟩ := (ofText_selectors css).2 [rule] outline
  obtain ⟨r, same, selectors, reported, -⟩ := found head _ _ _ member matched
  rw [texts] at selectors reported
  exact ⟨outline, member, matched, texts, r, same, selectors, reported⟩

end StyleAudit.Css
