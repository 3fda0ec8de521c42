import StyleAudit.Proofs.ReadingSteps
/-!
Reading does not look at places. What is read from tokens depends on their kinds and on what they were read from, and
where a line is kept it is the line of a token; so tokens that are moved to other places give the same style sheet, with
its lines moved along.
-/
namespace StyleAudit.Css

/-- A change to tokens that keeps what they are and moves their lines. -/
structure Moves (f : Token → Token) (g : Nat → Nat) : Prop where
  kind : ∀ t, (f t).kind = t.kind
  lexeme : ∀ t, (f t).lexeme = t.lexeme
  line : ∀ t, (f t).line = g t.line

/-! What was read, on other lines. -/

def Issue.moved (g : Nat → Nat) (i : Issue) : Issue := { i with line := g i.line }

def Declaration.moved (g : Nat → Nat) (d : Declaration) : Declaration := { d with line := g d.line }

def StyleRule.moved (g : Nat → Nat) (r : StyleRule) : StyleRule :=
  ⟨g r.line, r.selectors, r.declarations.map (Declaration.moved g)⟩

mutual
def Rule.moved (g : Nat → Nat) : Rule → Rule
  | .style r => .style (r.moved g)
  | .group line name prelude rules => .group (g line) name prelude (Rule.listMoved g rules)
  | .keyframes line keyword name frames => .keyframes (g line) keyword name (frames.map (StyleRule.moved g))
  | .charset line encoding => .charset (g line) encoding
  | .imported line url media => .imported (g line) url media
  | .descriptors line name prelude ds => .descriptors (g line) name prelude (ds.map (Declaration.moved g))
  | .statement line name prelude => .statement (g line) name prelude

def Rule.listMoved (g : Nat → Nat) : List Rule → List Rule
  | [] => []
  | r :: rest => r.moved g :: Rule.listMoved g rest
end

def Stylesheet.moved (g : Nat → Nat) (s : Stylesheet) : Stylesheet := ⟨Rule.listMoved g s.rules, s.issues.map (Issue.moved g)⟩

def Reading.moved {α β : Type} (item : α → β) (g : Nat → Nat) (r : Reading α) : Reading β :=
  ⟨r.items.map item, r.issues.map (Issue.moved g)⟩

def Ending.moved (g : Nat → Nat) (e : Ending) : Ending := { e with line := g e.line }

theorem Rule.listMoved_eq_map (g : Nat → Nat) (rules : List Rule) : Rule.listMoved g rules = rules.map (Rule.moved g) := by
  induction rules with
  | nil => rfl
  | cons r rest ih => rw [Rule.listMoved, ih, List.map_cons]

namespace Reading
variable {α β γ δ : Type} (item : α → β) (g : Nat → Nat)

@[simp] theorem moved_append (r s : Reading α) : (r ++ s).moved item g = r.moved item g ++ s.moved item g := by
  simp only [moved, items_append, issues_append, List.map_append]
  rfl

@[simp] theorem moved_discard (r : Reading α) (item' : γ → δ) :
    (r.discard : Reading γ).moved item' g = (r.moved item g).discard := rfl

@[simp] theorem moved_item (a : α) : (Reading.item a).moved item g = .item (item a) := rfl

@[simp] theorem moved_issue (defect : Defect) (line : Nat) :
    (Reading.issue defect line : Reading α).moved item g = .issue defect (g line) := rfl

@[simp] theorem moved_empty : ({} : Reading α).moved item g = {} := rfl

end Reading

namespace Node

mutual
def moved (f : Token → Token) : Node → Node
  | .leaf t => .leaf (f t)
  | .block opening opener contents closer => .block opening (f opener) (listMoved f contents) (closer.map f)

def listMoved (f : Token → Token) : List Node → List Node
  | [] => []
  | n :: rest => n.moved f :: listMoved f rest
end

theorem listMoved_eq_map (f : Token → Token) (nodes : List Node) : listMoved f nodes = nodes.map (moved f) := by
  induction nodes with
  | nil => rfl
  | cons n rest ih => rw [listMoved, ih, List.map_cons]

theorem listMoved_reverse (f : Token → Token) (nodes : List Node) :
    listMoved f nodes.reverse = (listMoved f nodes).reverse := by
  rw [listMoved_eq_map, listMoved_eq_map, List.map_reverse]

mutual
theorem tokens_moved (f : Token → Token) : ∀ n : Node, (n.moved f).tokens = n.tokens.map f
  | .leaf t => rfl
  | .block opening opener contents closer => by
      simp only [moved, tokens, listTokens_moved f contents, List.map_cons, List.map_append]
      cases closer <;> rfl

theorem listTokens_moved (f : Token → Token) : ∀ nodes : List Node, listTokens (listMoved f nodes) = (listTokens nodes).map f
  | [] => rfl
  | n :: rest => by
      simp only [listMoved, listTokens, tokens_moved f n, listTokens_moved f rest, List.map_append]
end

end Node

mutual
theorem ComponentValue.ofNode_moved {f : Token → Token} {g : Nat → Nat} (h : Moves f g) : ∀ n : Node,
    ofNode (n.moved f) = ofNode n
  | .leaf t => congrArg ComponentValue.token (h.kind t)
  | .block opening opener contents closer => by
      simp only [Node.moved, ComponentValue.ofNode, ofNodes_moved h contents]

theorem ComponentValue.ofNodes_moved {f : Token → Token} {g : Nat → Nat} (h : Moves f g) : ∀ nodes : List Node,
    ofNodes (Node.listMoved f nodes) = ofNodes nodes
  | [] => rfl
  | n :: rest => by
      simp only [Node.listMoved, ComponentValue.ofNodes, ofNode_moved h n, ofNodes_moved h rest]
end

theorem Rule.style?_moved (g : Nat → Nat) (r : Rule) : (r.moved g).style? = r.style?.map (StyleRule.moved g) := by
  cases r <;> rfl

section
variable {f : Token → Token} {g : Nat → Nat} (h : Moves f g)
include h

/-! The nodes of moved tokens. -/

def OpenBlock.moved (f : Token → Token) (b : OpenBlock) : OpenBlock := ⟨b.opening, f b.opener, Node.listMoved f b.before⟩

def Nesting.moved (f : Token → Token) (s : Nesting) : Nesting := ⟨Node.listMoved f s.nodes, s.blocks.map (OpenBlock.moved f)⟩

omit h in
theorem Nesting.close_moved (nodes : List Node) (b : OpenBlock) (closer : Option Token) :
    Nesting.close (Node.listMoved f nodes) (b.moved f) (closer.map f) = Node.listMoved f (Nesting.close nodes b closer) := by
  simp only [Nesting.close, OpenBlock.moved, Node.listMoved, Node.moved, Node.listMoved_reverse]

theorem Nesting.push_moved (s : Nesting) (t : Token) : (s.moved f).push (f t) = (s.push t).moved f := by
  obtain ⟨nodes, blocks⟩ := s
  simp only [Nesting.push, Nesting.moved, h.kind]
  cases t.kind.opens? with
  | some opening => rfl
  | none =>
      cases blocks with
      | nil => rfl
      | cons b outer =>
          simp only [List.map_cons, OpenBlock.moved]
          split
          · exact congrArg (Nesting.mk · _) (Nesting.close_moved nodes b (some t))
          · rfl

theorem Nesting.foldl_push_moved (s : Nesting) (ts : List Token) :
    (ts.map f).foldl Nesting.push (s.moved f) = (ts.foldl Nesting.push s).moved f := by
  induction ts generalizing s with
  | nil => rfl
  | cons t rest ih => rw [List.map_cons, List.foldl_cons, List.foldl_cons, Nesting.push_moved h, ih]

omit h in
theorem Nesting.finish_moved (s : Nesting) : (s.moved f).finish = Node.listMoved f s.finish := by
  obtain ⟨nodes, blocks⟩ := s
  simp only [Nesting.finish, Nesting.moved]
  induction blocks generalizing nodes with
  | nil => rw [List.map_nil, List.foldl_nil, List.foldl_nil, Node.listMoved_reverse]
  | cons b outer ih =>
      have close := Nesting.close_moved (f := f) nodes b none
      rw [Option.map_none] at close
      rw [List.map_cons, List.foldl_cons, List.foldl_cons, ← ih, close]

theorem Node.ofTokens_moved (ts : List Token) : Node.ofTokens (ts.map f) = Node.listMoved f (Node.ofTokens ts) := by
  rw [Node.ofTokens, Node.ofTokens, ← Nesting.finish_moved]
  exact congrArg Nesting.finish (Nesting.foldl_push_moved h {} ts)

/-! What is taken from nodes without their places. -/

omit h in
theorem Node.first_moved (n : Node) : (n.moved f).first = f n.first := by cases n <;> rfl

theorem Node.line_moved (n : Node) : (n.moved f).line = g n.line := by
  rw [Node.line, Node.first_moved, h.line, Node.line]

theorem Node.kind?_moved (n : Node) : (n.moved f).kind? = n.kind? := by
  cases n with
  | leaf t => exact congrArg some (h.kind t)
  | block opening opener contents closer => rfl

omit h in
theorem Node.isCurly_moved (n : Node) : (n.moved f).isCurly = n.isCurly := by
  cases n with
  | leaf t => rfl
  | block opening opener contents closer => cases opening with
    | bracket b => cases b <;> rfl
    | function name => rfl

theorem compactFrom_moved (last : Option Char) (space : Bool) (ts : List Token) :
    compactFrom last space (ts.map f) = compactFrom last space ts := by
  induction ts generalizing last space with
  | nil => rfl
  | cons t rest ih => simp only [List.map_cons, compactFrom, h.kind, h.lexeme, ih]

theorem textOf_moved (nodes : List Node) : textOf (Node.listMoved f nodes) = textOf nodes := by
  rw [textOf, ← Node.listMoved_reverse, Node.listTokens_moved, compactText, compactFrom_moved h]
  rfl

theorem splitSelectors_moved (depth : Nat) (ts : List Token) :
    splitSelectors depth (ts.map f) = (splitSelectors depth ts).map (List.map f) := by
  induction ts generalizing depth with
  | nil => rfl
  | cons t rest ih =>
      simp only [List.map_cons, splitSelectors, h.kind, ih]
      split
      · rfl
      · generalize splitSelectors _ rest = parts
        cases parts <;> rfl

theorem selectors_moved (line : Nat) (nodes : List Node) :
    selectors (g line) (Node.listMoved f nodes) = (selectors line nodes).moved id g := by
  have texts : (splitSelectors 0 (Node.listTokens (Node.listMoved f nodes).reverse)).map (fun ts => String.ofList (compactText ts)) =
      (splitSelectors 0 (Node.listTokens nodes.reverse)).map fun ts => String.ofList (compactText ts) := by
    rw [← Node.listMoved_reverse, Node.listTokens_moved, splitSelectors_moved h, List.map_map]
    refine List.map_congr_left fun ts _ => ?_
    exact congrArg String.ofList (compactFrom_moved h none false ts)
  simp only [selectors, texts, Reading.moved, List.map_id]
  split <;> rfl

theorem declaration_moved (name : String) (line : Nat) (nodes : List Node) :
    declaration name (g line) (Node.listMoved f nodes) = (declaration name line nodes).moved g := by
  have text : compactText (Node.listTokens (Node.listMoved f nodes).reverse) = compactText (Node.listTokens nodes.reverse) := by
    rw [← Node.listMoved_reverse, Node.listTokens_moved]
    exact compactFrom_moved h none false _
  simp only [declaration, text, ComponentValue.ofNodes_moved h]
  split <;> rfl

theorem atRuleWithoutBlock_moved (name : String) (line : Nat) (prelude : List Node) :
    atRuleWithoutBlock name (g line) (Node.listMoved f prelude) = (atRuleWithoutBlock name line prelude).moved g := by
  simp only [atRuleWithoutBlock, ← Node.listMoved_reverse, ComponentValue.ofNodes_moved h, textOf_moved h]
  split
  · rfl
  · split
    · split <;> rfl
    · rfl

/-! Reading. -/

def PendingRule.moved (f : Token → Token) (g : Nat → Nat) : PendingRule → PendingRule
  | .nothing => .nothing
  | .style line nodes => .style (g line) (Node.listMoved f nodes)
  | .atRule name line nodes => .atRule name (g line) (Node.listMoved f nodes)

def PendingDeclaration.moved (f : Token → Token) (g : Nat → Nat) : PendingDeclaration → PendingDeclaration
  | .nothing => .nothing
  | .colon name line => .colon name (g line)
  | .value name line nodes => .value name (g line) (Node.listMoved f nodes)
  | .skipped => .skipped
  | .atRule name line nodes => .atRule name (g line) (Node.listMoved f nodes)

theorem Ending.ofCloser_moved (outer : Ending) (closer : Option Token) :
    (outer.moved g).ofCloser (closer.map f) = (outer.ofCloser closer).moved g := by
  cases closer with
  | none => rfl
  | some t => exact congrArg (Ending.mk true) (h.line t)

theorem Ending.next_moved (stop : Ending) (nodes : List Node) :
    (stop.moved g).next (Node.listMoved f nodes) = g (stop.next nodes) := by
  cases nodes with
  | nil => rfl
  | cons n rest => exact Node.line_moved h n

omit h in
theorem endOfRules_moved (nested : Bool) (stop : Ending) :
    endOfRules nested (stop.moved g) = (endOfRules nested stop).moved (Rule.moved g) g := by
  obtain ⟨closed, line⟩ := stop
  cases nested <;> cases closed <;> rfl

omit h in
theorem unclosed_moved (defect : Defect) (inner : Ending) :
    (if (inner.moved g).closed then {} else Reading.issue defect (inner.moved g).line) =
      (if inner.closed then {} else Reading.issue defect inner.line : Reading Rule).moved (Rule.moved g) g := by
  obtain ⟨closed, line⟩ := inner
  cases closed <;> rfl

theorem ruleEnd_moved (nested : Bool) (stop : Ending) (pending : PendingRule) :
    ruleEnd nested (stop.moved g) (pending.moved f g) = (ruleEnd nested stop pending).moved (Rule.moved g) g := by
  cases pending with
  | nothing => exact endOfRules_moved nested stop
  | style line nodes =>
      rw [ruleEnd, Reading.moved_append, ← endOfRules_moved]
      rfl
  | atRule name line nodes =>
      rw [ruleEnd, Reading.moved_append, ← endOfRules_moved, Reading.moved_item, ← atRuleWithoutBlock_moved h]
      rfl

theorem declarationEnd_moved (stop : Ending) (pending : PendingDeclaration) :
    declarationEnd (stop.moved g) (pending.moved f g) =
      (declarationEnd stop pending).moved (Declaration.moved g) g := by
  cases pending with
  | nothing => rfl
  | skipped => rfl
  | atRule name line nodes => rfl
  | colon name line => rfl
  | value name line nodes => exact congrArg Reading.item (declaration_moved h name line nodes)

/-- What blocks add when their tokens are moved. -/
structure BlocksMoved (f : Token → Token) (g : Nat → Nat) (stop : Ending) (n : Node) : Prop where
  style : ∀ line nodes, readStyleBlock (stop.moved g) (g line) (Node.listMoved f nodes) (n.moved f) =
    (readStyleBlock stop line nodes n).moved (Rule.moved g) g
  atRule : ∀ name line nodes, readAtBlock (stop.moved g) name (g line) (Node.listMoved f nodes) (n.moved f) =
    (readAtBlock stop name line nodes n).moved (Rule.moved g) g

theorem ruleStep_moved {nested : Bool} {stop : Ending} {n : Node} (blocks : BlocksMoved f g stop n) (next : Nat)
    (pending : PendingRule) :
    ruleStep nested (stop.moved g) (g next) (pending.moved f g) (n.moved f) =
      ((ruleStep nested stop next pending n).1.moved (Rule.moved g) g, (ruleStep nested stop next pending n).2.moved f g) := by
  cases pending with
  | nothing =>
      have style := blocks.style n.line []
      simp only [ruleStep, PendingRule.moved, Node.kind?_moved h, Node.isCurly_moved, Node.line_moved h]
      split
      · rfl
      · rfl
      · split
        · exact congrArg (·, _) style
        · split
          · rfl
          · split <;> rfl
  | style line nodes =>
      have style := blocks.style line nodes
      simp only [ruleStep, PendingRule.moved, Node.isCurly_moved]
      split
      · exact congrArg (·, _) style
      · rfl
  | atRule name line nodes =>
      have rule := blocks.atRule name line nodes
      simp only [ruleStep, PendingRule.moved, Node.isCurly_moved, Node.kind?_moved h]
      split
      · exact congrArg (·, _) rule
      · split
        · exact congrArg (Reading.item ·, _) (atRuleWithoutBlock_moved h name line nodes)
        · rfl

theorem declarationStep_moved {stop : Ending} {n : Node} (blocks : BlocksMoved f g stop n) (pending : PendingDeclaration) :
    declarationStep (stop.moved g) (pending.moved f g) (n.moved f) =
      ((declarationStep stop pending n).1.moved (Declaration.moved g) g, (declarationStep stop pending n).2.moved f g) := by
  cases pending with
  | nothing =>
      simp only [declarationStep, PendingDeclaration.moved, Node.kind?_moved h, Node.line_moved h, Node.first_moved, h.kind]
      split <;> rfl
  | colon name line =>
      simp only [declarationStep, PendingDeclaration.moved, Node.kind?_moved h, Node.line_moved h]
      split <;> rfl
  | value name line nodes =>
      have emptiness : (Node.listMoved f nodes).isEmpty = nodes.isEmpty := by cases nodes <;> rfl
      simp only [declarationStep, PendingDeclaration.moved, Node.kind?_moved h, emptiness]
      split
      · exact congrArg (Reading.item ·, _) (declaration_moved h name line nodes)
      · split <;> rfl
  | skipped =>
      simp only [declarationStep, PendingDeclaration.moved, Node.kind?_moved h]
      split <;> rfl
  | atRule name line nodes =>
      have rule := blocks.atRule name line nodes
      simp only [declarationStep, PendingDeclaration.moved, Node.isCurly_moved, Node.kind?_moved h]
      split
      · exact congrArg (fun r : Reading Rule => (r.discard, _)) rule
      · split <;> rfl

mutual
theorem readRules_moved (nested : Bool) (stop : Ending) : ∀ (pending : PendingRule) (nodes : List Node),
    readRules nested (stop.moved g) (pending.moved f g) (Node.listMoved f nodes) =
      (readRules nested stop pending nodes).moved (Rule.moved g) g
  | pending, [] => by
      rw [Node.listMoved, readRules_nil, readRules_nil, ruleEnd_moved h]
  | pending, n :: rest => by
      rw [Node.listMoved, readRules_cons, readRules_cons, Ending.next_moved h, ruleStep_moved h (blocks_moved stop n),
        Reading.moved_append, readRules_moved nested stop _ rest]

theorem readDeclarations_moved (stop : Ending) : ∀ (pending : PendingDeclaration) (nodes : List Node),
    readDeclarations (stop.moved g) (pending.moved f g) (Node.listMoved f nodes) =
      (readDeclarations stop pending nodes).moved (Declaration.moved g) g
  | pending, [] => by
      rw [Node.listMoved, readDeclarations_nil, readDeclarations_nil, declarationEnd_moved h]
  | pending, n :: rest => by
      rw [Node.listMoved, readDeclarations_cons, readDeclarations_cons, declarationStep_moved h (blocks_moved stop n),
        Reading.moved_append, readDeclarations_moved stop _ rest]

theorem blocks_moved (stop : Ending) : ∀ n : Node, BlocksMoved f g stop n
  | .leaf _ => ⟨fun _ _ => rfl, fun _ _ _ => rfl⟩
  | .block opening opener contents closer => by
      have declarations : readDeclarations ((stop.moved g).ofCloser (closer.map f)) .nothing (Node.listMoved f contents) =
          (readDeclarations (stop.ofCloser closer) .nothing contents).moved (Declaration.moved g) g := by
        rw [Ending.ofCloser_moved h]
        exact readDeclarations_moved (stop.ofCloser closer) .nothing contents
      have rules : readRules true ((stop.moved g).ofCloser (closer.map f)) .nothing (Node.listMoved f contents) =
          (readRules true (stop.ofCloser closer) .nothing contents).moved (Rule.moved g) g := by
        rw [Ending.ofCloser_moved h]
        exact readRules_moved true (stop.ofCloser closer) .nothing contents
      constructor
      · intro line nodes
        rw [Node.moved, readStyleBlock, readStyleBlock, declarations, selectors_moved h]
        simp only [Reading.moved_append, Reading.moved_item, Rule.moved, StyleRule.moved]
        rw [Reading.moved_discard id g, Reading.moved_discard (Declaration.moved g) g]
        simp only [Reading.moved, List.map_id]
      · intro name line nodes
        rw [Node.moved, readAtBlock, readAtBlock]
        simp only [declarations, rules, textOf_moved h]
        cases BlockKind.ofName name with
        | rules =>
            simp only [Reading.moved_append, Reading.moved_item, Rule.moved, Rule.listMoved_eq_map]
            rw [Reading.moved_discard (Rule.moved g) g]
            rfl
        | keyframes =>
            simp only [Reading.moved_append, Reading.moved_item, Rule.moved]
            rw [Reading.moved_discard (Rule.moved g) g]
            have frames (r : Reading Rule) : (r.moved (Rule.moved g) g).items.filterMap Rule.style? =
                ((r.items.filterMap Rule.style?).map (StyleRule.moved g)) := by
              rw [Reading.moved, List.filterMap_map, List.map_filterMap]
              exact congrArg (List.filterMap · r.items) (funext (Rule.style?_moved g))
            rw [frames]
        | declarations =>
            simp only [Reading.moved_append, Reading.moved_item, Rule.moved]
            rw [Reading.moved_discard (Declaration.moved g) g, Ending.ofCloser_moved h, unclosed_moved]
            rfl
end

theorem Stylesheet.endLine_moved {ts : List Token} (some : ts ≠ []) :
    Stylesheet.endLine (ts.map f) = g (Stylesheet.endLine ts) := by
  have kinds : ((fun t : Token => decide (t.kind = .endOfSource)) ∘ f) = fun t => decide (t.kind = .endOfSource) :=
    funext fun t => congrArg (fun kind => decide (kind = TokenKind.endOfSource)) (h.kind t)
  rw [endLine, endLine, List.find?_map, kinds]
  cases ts.find? fun t => decide (t.kind = .endOfSource) with
  | some t => exact h.line t
  | none =>
      obtain ⟨t, last⟩ := Option.ne_none_iff_exists'.mp (mt List.getLast?_eq_none_iff.mp some)
      rw [List.getLast?_map, last]
      exact h.line t

/-- A style sheet does not depend on where its tokens stand, and its lines move with theirs. -/
theorem Stylesheet.ofTokens_moved {ts : List Token} (some : ts ≠ []) :
    Stylesheet.ofTokens (ts.map f) = (Stylesheet.ofTokens ts).moved g := by
  have cut : (ts.map f).takeWhile (·.kind ≠ .endOfSource) = (ts.takeWhile (·.kind ≠ .endOfSource)).map f := by
    rw [List.takeWhile_map]
    congr 2
    funext t
    exact congrArg (fun kind => decide (kind ≠ .endOfSource)) (h.kind t)
  have read := readRules_moved h false ⟨false, endLine ts⟩ .nothing (Node.ofTokens (ts.takeWhile (·.kind ≠ .endOfSource)))
  rw [← Node.ofTokens_moved h, ← cut] at read
  simp only [Stylesheet.ofTokens, Stylesheet.moved, endLine_moved h some, Rule.listMoved_eq_map]
  exact congrArg (fun r : Reading Rule => Stylesheet.mk r.items r.issues) read

end

/-! Lines that stay. -/

theorem Declaration.moved_id : Declaration.moved id = id := rfl

theorem StyleRule.moved_id : StyleRule.moved id = id := by
  funext r
  rw [moved, Declaration.moved_id, List.map_id]
  rfl

mutual
theorem Rule.moved_id : ∀ r : Rule, r.moved id = r
  | .group line name prelude rules => by rw [moved, listMoved_id rules, id]
  | .style r => by rw [moved, StyleRule.moved_id, id]
  | .keyframes line keyword name frames => by rw [moved, StyleRule.moved_id, List.map_id, id]
  | .charset .. => rfl
  | .imported .. => rfl
  | .descriptors line name prelude ds => by rw [moved, Declaration.moved_id, List.map_id, id]
  | .statement .. => rfl

theorem Rule.listMoved_id : ∀ rules : List Rule, listMoved id rules = rules
  | [] => rfl
  | r :: rest => by rw [listMoved, moved_id r, listMoved_id rest]
end

theorem Stylesheet.moved_id (s : Stylesheet) : s.moved id = s := by
  have issues : Issue.moved id = id := rfl
  rw [moved, Rule.listMoved_id, issues, List.map_id]

end StyleAudit.Css
