import StyleAudit.Proofs.NestedNodes
import StyleAudit.Proofs.ReadingSteps
import StyleAudit.Proofs.TokenSpans
/-!
The outline of a style sheet: its rules and declarations with the nodes they are written with, and all that stands
between them. An outline is told by what may stand where, not by how it is read. Every list of nodes has one, none of
its nodes left out, and what is read from the nodes is what the outline says.
-/
namespace StyleAudit.Css

/-- What a list of nodes is read for. -/
inductive Level where
  /-- Rules, at the top of a style sheet or in a block. -/
  | rules (nested : Bool)
  | declarations
  deriving DecidableEq

namespace Level

/-- What the block of the named at-rule is read for. -/
def ofName (name : String) : Level :=
  match BlockKind.ofName name with
  | .rules | .keyframes => .rules true
  | .declarations => .declarations

/-- Tokens that may stand between two rules, or between two declarations, and stand for nothing. -/
def idle : Level → List TokenKind
  | .rules true => [.whitespace]
  | .rules false => [.whitespace, .commentOpen, .commentClose]
  | .declarations => [.whitespace, .semicolon]

/-- Nodes that a style rule can begin with. -/
def BeginsStyle (nested : Bool) (n : Node) : Prop :=
  ∀ kind, n.kind? = some kind →
    kind ∉ (rules nested).idle ∧ kind ≠ .closing .curly ∧ ∀ word, kind ≠ .atKeyword word

/-- Nodes that nothing in a list of declarations begins with. -/
def BeginsNothing (n : Node) : Prop :=
  ∀ kind, n.kind? = some kind →
    kind ∉ declarations.idle ∧ (∀ word, kind ≠ .atKeyword word) ∧ ∀ name, kind ≠ .ident name

end Level

/-- What stands at one place of a style sheet, as it is written. An unclosed block has no closing token. -/
inductive Clause where
  /-- A token that stands for nothing. -/
  | idle (token : Token)
  /-- A closing curly bracket that closes nothing. -/
  | stray (token : Token)
  | style (head : List Node) (opener : Token) (body : List Clause) (closer : Option Token)
  /-- The beginning of a style rule at the end of a list. -/
  | bare (first : Node) (head : List Node)
  | block (keyword : Token) (word : String) (prelude : List Node) (opener : Token) (body : List Clause)
    (closer : Option Token)
  /-- An at-rule without a block. -/
  | statement (keyword : Token) (word : String) (prelude : List Node) (semicolon : Option Token)
  | declaration (property : Token) (name : String) (space : List Node) (colon : Token) (blank value : List Node)
  | noColon (property : Token) (name : String) (space skipped : List Node)
  | unexpected (first : Node) (skipped : List Node)

namespace Clause

/-- The first token of a style rule. A rule without selectors starts with its block. -/
def start (head : List Node) (opener : Token) : Token := (head.head?.map Node.first).getD opener

mutual
/-- The nodes that something is written with. -/
def nodes : Clause → List Node
  | .idle t | .stray t => [.leaf t]
  | .style head opener body closer => head ++ [.block (.bracket .curly) opener (listNodes body) closer]
  | .bare first head => first :: head
  | .block keyword _ prelude opener body closer =>
    .leaf keyword :: (prelude ++ [.block (.bracket .curly) opener (listNodes body) closer])
  | .statement keyword _ prelude semicolon => .leaf keyword :: (prelude ++ semicolon.toList.map .leaf)
  | .declaration property _ space colon blank value => .leaf property :: (space ++ .leaf colon :: (blank ++ value))
  | .noColon property _ space skipped => .leaf property :: (space ++ skipped)
  | .unexpected first skipped => first :: skipped

def listNodes : List Clause → List Node
  | [] => []
  | c :: cs => c.nodes ++ listNodes cs
end

/-- Nodes that are white space. -/
def Blank (ns : List Node) : Prop := ∀ n ∈ ns, n.kind? = some .whitespace

/-- Nodes up to a semicolon. -/
def UpToSemicolon (ns behind : List Node) : Prop :=
  (∀ n ∈ ns, n.kind? ≠ some .semicolon) ∧ ∀ n ∈ behind.head?, n.kind? = some .semicolon

mutual
/-- Whether something may stand in a list that is read for rules or for declarations, in front of the given nodes. -/
def Fits (level : Level) (behind : List Node) : Clause → Prop
  | .idle t => t.kind ∈ level.idle
  | .stray t => (∃ nested, level = .rules nested) ∧ t.kind = .closing .curly
  | .style head _ body _ =>
    (∃ nested, level = .rules nested ∧ ∀ n ∈ head.head?, Level.BeginsStyle nested n) ∧
      (∀ n ∈ head, n.isCurly = false) ∧ AllFit .declarations body
  | .bare first head =>
    (∃ nested, level = .rules nested ∧ Level.BeginsStyle nested first) ∧
      (∀ n ∈ first :: head, n.isCurly = false) ∧ behind = []
  | .block keyword word prelude _ body _ =>
    keyword.kind = .atKeyword word ∧ (∀ n ∈ prelude, InPrelude n) ∧ AllFit (.ofName word.toLower) body
  | .statement keyword word prelude semicolon =>
    keyword.kind = .atKeyword word ∧ (∀ n ∈ prelude, InPrelude n) ∧
      (∀ t, semicolon = some t → t.kind = .semicolon) ∧ (semicolon = none → behind = [])
  | .declaration property name space colon blank value =>
    level = .declarations ∧ property.kind = .ident name ∧ Blank space ∧ colon.kind = .colon ∧ Blank blank ∧
      (∀ n ∈ value.head?, n.kind? ≠ some .whitespace) ∧ UpToSemicolon value behind
  | .noColon property name space skipped =>
    level = .declarations ∧ property.kind = .ident name ∧ Blank space ∧
      (∀ n ∈ skipped.head?, n.kind? ≠ some .whitespace ∧ n.kind? ≠ some .colon) ∧ UpToSemicolon skipped behind
  | .unexpected first skipped =>
    level = .declarations ∧ Level.BeginsNothing first ∧ UpToSemicolon skipped behind

def AllFit (level : Level) : List Clause → Prop
  | [] => True
  | c :: cs => c.Fits level (listNodes cs) ∧ AllFit level cs
end

/-! What an outline says. -/

/-- The declaration that is kept of something in a list of declarations; at-rules there are left out. -/
def declaration? : Clause → Option Declaration
  | .declaration property name _ _ _ value => some (Css.declaration name property.line value.reverse)
  | _ => none

mutual
/-- The rule that is kept of something in a list of rules. -/
def rule? : Clause → Option Rule
  | .style head opener body _ =>
    let line := (start head opener).line
    some (.style ⟨line, (selectors line head.reverse).items, body.filterMap declaration?⟩)
  | .block keyword word prelude _ body _ =>
    let name := word.toLower
    some (match BlockKind.ofName name with
      | .rules => .group keyword.line name (textOf prelude.reverse) (listRules body)
      | .keyframes => .keyframes keyword.line name (textOf prelude.reverse) ((listRules body).filterMap Rule.style?)
      | .declarations => .descriptors keyword.line name (textOf prelude.reverse) (body.filterMap declaration?))
  | .statement keyword word prelude _ => some (atRuleWithoutBlock word.toLower keyword.line prelude.reverse)
  | _ => none

def listRules : List Clause → List Rule
  | [] => []
  | c :: cs => c.rule?.toList ++ listRules cs
end

/-- What is reported of the named at-rule if its block ends in the given way. -/
def blockEnd (name : String) (inner : Ending) : List Issue :=
  match inner.closed, Level.ofName name with
  | true, _ => []
  | false, .rules _ => [⟨.unclosedGroup, inner.line⟩]
  | false, .declarations => [⟨.unclosedBlock name, inner.line⟩]

mutual
/-- What is reported of something in a list that ends in the given way, with its contents. The line is that of the next
token behind it. -/
def issues (stop : Ending) (next : Nat) : Clause → List Issue
  | .idle _ | .statement .. | .declaration .. => []
  | .stray _ => [⟨.strayBrace, next⟩]
  | .style head opener body closer =>
    (selectors (start head opener).line head.reverse).issues ++ listIssues (stop.ofCloser closer) body
  | .bare _ _ => [⟨.noBlock, stop.line⟩]
  | .block _ word _ _ body closer =>
    listIssues (stop.ofCloser closer) body ++ blockEnd word.toLower (stop.ofCloser closer)
  | .noColon _ name _ skipped => [⟨.noColon name, (skipped.head?.map Node.line).getD next⟩]
  | .unexpected first _ => [⟨.unexpected first.first.kind, first.line⟩]

def listIssues (stop : Ending) : List Clause → List Issue
  | [] => []
  | c :: cs => c.issues stop (stop.next (listNodes cs)) ++ listIssues stop cs
end

mutual
/-- Something and all that is in it, the outermost first. -/
def all : Clause → List Clause
  | .style head opener body closer => .style head opener body closer :: listAll body
  | .block keyword word prelude opener body closer => .block keyword word prelude opener body closer :: listAll body
  | c => [c]

def listAll : List Clause → List Clause
  | [] => []
  | c :: cs => c.all ++ listAll cs
end

theorem listNodes_append (cs ds : List Clause) : listNodes (cs ++ ds) = listNodes cs ++ listNodes ds := by
  induction cs with
  | nil => rfl
  | cons c cs ih => rw [List.cons_append, listNodes, listNodes, ih, List.append_assoc]

theorem nodes_ne_nil (c : Clause) : c.nodes ≠ [] := by
  cases c <;> simp [nodes]

theorem mem_all (c : Clause) : c ∈ c.all := by
  cases c <;> simp [all]

/-- Where something stands in an outline: it may stand there, and its nodes are nested. -/
def IsPlaced (c : Clause) : Prop :=
  ∃ level behind around last, c.Fits level behind ∧ Node.AreNested around last (c.nodes ++ behind)

/-- What is in a block, and the tokens of it. -/
theorem of_mem_body {around : Option Bracket} {last : Bool} {level : Level} {front rest : List Node} {opening : Opening}
    {opener : Token} {body : List Clause} {closer : Option Token} {c : Clause}
    (placed : ∀ {around : Option Bracket} {last : Bool}, AllFit level body → Node.AreNested around last (listNodes body) →
      c.IsPlaced ∧ ∀ t ∈ Node.listTokens c.nodes, t ∈ Node.listTokens (listNodes body))
    (fit : AllFit level body)
    (nested : Node.AreNested around last (front ++ .block opening opener (listNodes body) closer :: rest)) :
    c.IsPlaced ∧ ∀ t ∈ Node.listTokens c.nodes,
      t ∈ Node.listTokens (front ++ [.block opening opener (listNodes body) closer]) := by
  obtain ⟨known, part⟩ := placed fit (Node.areNested_append.mp nested).2.1.2.1
  refine ⟨known, fun t ht => ?_⟩
  have := part t ht
  simp [Node.listTokens_append, Node.listTokens, Node.tokens, this]

mutual
theorem of_mem_all {c : Clause} : ∀ (d : Clause) {around : Option Bracket} {last : Bool} {level : Level}
    {rest : List Node}, c ∈ d.all → d.Fits level rest → Node.AreNested around last (d.nodes ++ rest) →
      c.IsPlaced ∧ ∀ t ∈ Node.listTokens c.nodes, t ∈ Node.listTokens d.nodes
  | .style head opener body closer, _, _, _, _, mem, fit, nested => by
      rcases List.mem_cons.mp mem with rfl | within
      · exact ⟨⟨_, _, _, _, fit, nested⟩, fun t ht => ht⟩
      · rw [nodes, List.append_assoc] at nested
        exact of_mem_body (of_mem_listAll body within) fit.2.2 nested
  | .block keyword word prelude opener body closer, _, _, _, _, mem, fit, nested => by
      rcases List.mem_cons.mp mem with rfl | within
      · exact ⟨⟨_, _, _, _, fit, nested⟩, fun t ht => ht⟩
      · rw [nodes, List.cons_append, List.append_assoc, ← List.cons_append] at nested
        exact of_mem_body (of_mem_listAll body within) fit.2.2 nested
  | .idle _, _, _, _, _, mem, fit, nested | .stray _, _, _, _, _, mem, fit, nested
  | .bare .., _, _, _, _, mem, fit, nested | .statement .., _, _, _, _, mem, fit, nested
  | .declaration .., _, _, _, _, mem, fit, nested | .noColon .., _, _, _, _, mem, fit, nested
  | .unexpected .., _, _, _, _, mem, fit, nested => by
      obtain rfl := List.mem_singleton.mp mem
      exact ⟨⟨_, _, _, _, fit, nested⟩, fun t ht => ht⟩

/-- What is anywhere in an outline may stand where it does, and its tokens are tokens of the outline. -/
theorem of_mem_listAll {c : Clause} : ∀ (cs : List Clause), c ∈ listAll cs →
    ∀ {around : Option Bracket} {last : Bool} {level : Level}, AllFit level cs →
      Node.AreNested around last (listNodes cs) →
      c.IsPlaced ∧ ∀ t ∈ Node.listTokens c.nodes, t ∈ Node.listTokens (listNodes cs)
  | [], mem, _, _, _, _, _ => (List.not_mem_nil mem).elim
  | d :: ds, mem, _, _, _, fit, nested => by
      rw [listNodes] at nested ⊢
      rw [Node.listTokens_append]
      rcases List.mem_append.mp mem with here | later
      · obtain ⟨placed, part⟩ := of_mem_all d here fit.1 nested
        exact ⟨placed, fun t ht => List.mem_append_left _ (part t ht)⟩
      · obtain ⟨placed, part⟩ := of_mem_listAll ds later fit.2 (Node.areNested_append.mp nested).2
        exact ⟨placed, fun t ht => List.mem_append_right _ (part t ht)⟩
end

/-- An at-rule without a block has one of three forms. -/
theorem atRuleWithoutBlock_form (name : String) (line : Nat) (prelude : List Node) :
    (∃ encoding, atRuleWithoutBlock name line prelude = .charset line encoding) ∨
      (∃ url media, atRuleWithoutBlock name line prelude = .imported line url media) ∨
        atRuleWithoutBlock name line prelude = .statement line name (textOf prelude) := by
  simp only [atRuleWithoutBlock]
  split
  · exact .inl ⟨_, rfl⟩
  · split
    · split
      · exact .inr (.inl ⟨_, _, rfl⟩)
      · exact .inr (.inl ⟨_, _, rfl⟩)
    · exact .inr (.inr rfl)

/-! An outline is read as it says. -/

/-- The reading of a block, from the reading of what is in it. -/
theorem readAtBlock_body {stop : Ending} {name : String} {line : Nat} {prelude contents : List Node} {opener : Token}
    {body : List Clause} {closer : Option Token}
    (rules : Level.ofName name = .rules true →
      readRules true (stop.ofCloser closer) .nothing contents =
        ⟨listRules body, listIssues (stop.ofCloser closer) body⟩ ++ endOfRules true (stop.ofCloser closer))
    (declarations : Level.ofName name = .declarations →
      readDeclarations (stop.ofCloser closer) .nothing contents =
        ⟨body.filterMap declaration?, listIssues (stop.ofCloser closer) body⟩) :
    readAtBlock stop name line prelude (.block (.bracket .curly) opener contents closer) =
      ⟨[match BlockKind.ofName name with
        | .rules => .group line name (textOf prelude) (listRules body)
        | .keyframes => .keyframes line name (textOf prelude) ((listRules body).filterMap Rule.style?)
        | .declarations => .descriptors line name (textOf prelude) (body.filterMap declaration?)],
        listIssues (stop.ofCloser closer) body ++ blockEnd name (stop.ofCloser closer)⟩ := by
  rw [readAtBlock, blockEnd]
  unfold Level.ofName at rules declarations ⊢
  generalize BlockKind.ofName name = kind at rules declarations ⊢
  cases kind with
  | rules =>
      rw [rules rfl, endOfRules]
      cases (stop.ofCloser closer).closed <;> simp [Reading.discard, Reading.item, Reading.issue, Reading.mk_append]
  | keyframes =>
      rw [rules rfl, endOfRules]
      cases (stop.ofCloser closer).closed <;> simp [Reading.discard, Reading.item, Reading.issue, Reading.mk_append]
  | declarations =>
      rw [declarations rfl]
      cases (stop.ofCloser closer).closed <;> simp [Reading.discard, Reading.item, Reading.issue, Reading.mk_append]

theorem readRules_idle {nested : Bool} {stop : Ending} {t : Token} (h : t.kind ∈ (Level.rules nested).idle)
    (rest : List Node) : readRules nested stop .nothing (.leaf t :: rest) = readRules nested stop .nothing rest := by
  have step : ruleStep nested stop (stop.next rest) .nothing (.leaf t) = ({}, .nothing) := by
    cases nested with
    | true =>
        have kind : t.kind = .whitespace := List.mem_singleton.mp h
        simp only [ruleStep, Node.kind?, kind]
    | false =>
        have kind : t.kind = .whitespace ∨ t.kind = .commentOpen ∨ t.kind = .commentClose := by
          simpa [Level.idle] using h
        rcases kind with kind | kind | kind <;> simp [ruleStep, Node.kind?, Node.isCurly, kind]
  rw [readRules_cons, step, Reading.empty_append]

theorem readDeclarations_idleToken {stop : Ending} {t : Token} (h : t.kind ∈ Level.declarations.idle)
    (rest : List Node) : readDeclarations stop .nothing (.leaf t :: rest) = readDeclarations stop .nothing rest := by
  have kind : t.kind = .whitespace ∨ t.kind = .semicolon := by simpa [Level.idle] using h
  have step : declarationStep stop .nothing (.leaf t) = ({}, .nothing) := by
    rcases kind with kind | kind <;> simp only [declarationStep, Node.kind?, kind]
  rw [readDeclarations_cons, step, Reading.empty_append]

theorem readRules_stray {nested : Bool} {stop : Ending} {t : Token} (h : t.kind = .closing .curly) (rest : List Node) :
    readRules nested stop .nothing (.leaf t :: rest) =
      .issue .strayBrace (stop.next rest) ++ readRules nested stop .nothing rest := by
  have step : ruleStep nested stop (stop.next rest) .nothing (.leaf t) =
      (.issue .strayBrace (stop.next rest), .nothing) := by
    simp [ruleStep, Node.kind?, Node.isCurly, h]
  rw [readRules_cons, step]

theorem readRules_keyword {nested : Bool} {stop : Ending} {t : Token} {word : String} (h : t.kind = .atKeyword word)
    (rest : List Node) :
    readRules nested stop .nothing (.leaf t :: rest) = readRules nested stop (.atRule word.toLower t.line []) rest := by
  have step : ruleStep nested stop (stop.next rest) .nothing (.leaf t) = ({}, .atRule word.toLower t.line []) := by
    simp only [ruleStep, Node.kind?, h]
    rfl
  rw [readRules_cons, step, Reading.empty_append]

theorem readDeclarations_keyword {stop : Ending} {t : Token} {word : String} (h : t.kind = .atKeyword word)
    (rest : List Node) :
    readDeclarations stop .nothing (.leaf t :: rest) =
      readDeclarations stop (.atRule word.toLower t.line []) rest := by
  have step : declarationStep stop .nothing (.leaf t) = ({}, .atRule word.toLower t.line []) := by
    simp only [declarationStep, Node.kind?, h]
    rfl
  rw [readDeclarations_cons, step, Reading.empty_append]

theorem readDeclarations_property {stop : Ending} {t : Token} {name : String} (h : t.kind = .ident name)
    {space : List Node} (blank : Blank space) (rest : List Node) :
    readDeclarations stop .nothing (.leaf t :: (space ++ rest)) =
      readDeclarations stop (.colon name t.line) rest := by
  have step : declarationStep stop .nothing (.leaf t) = ({}, .colon name t.line) := by
    simp only [declarationStep, Node.kind?, h]
    rfl
  rw [readDeclarations_cons, step, Reading.empty_append, readDeclarations_idle fun n hn => ?_]
  simp only [declarationStep, blank n hn]

theorem readRules_styleStart {nested : Bool} {stop : Ending} {n : Node} (h : Level.BeginsStyle nested n)
    (rest : List Node) :
    readRules nested stop .nothing (n :: rest) = readRules nested stop (.style n.line []) (n :: rest) := by
  refine readRules_begins (fun white => ?_) (fun name keyword => ?_) (fun brace => ?_) ?_
  · have := (h _ white).1
    cases nested <;> simp [Level.idle] at this
  · exact (h _ keyword).2.2 name rfl
  · exact (h _ brace).2.1 rfl
  · rintro ⟨open' | close, rfl⟩
    · simpa [Level.idle] using (h _ open').1
    · simpa [Level.idle] using (h _ close).1

/-- The whole of a style rule, from the reading of what is in its block. -/
theorem readRules_styleRule {nested : Bool} {stop : Ending} {head rest contents : List Node} {opener : Token}
    {closer : Option Token} {declarations : List Declaration} {issues : List Issue}
    (begins : ∀ n ∈ head.head?, Level.BeginsStyle nested n) (flat : ∀ n ∈ head, n.isCurly = false)
    (body : readDeclarations (stop.ofCloser closer) .nothing contents = ⟨declarations, issues⟩) :
    let line := (start head opener).line
    readRules nested stop .nothing (head ++ .block (.bracket .curly) opener contents closer :: rest) =
      ⟨[.style ⟨line, (selectors line head.reverse).items, declarations⟩],
        (selectors line head.reverse).issues ++ issues⟩ ++ readRules nested stop .nothing rest := by
  intro line
  have begun (ns : List Node) (h : ns = head ++ .block (.bracket .curly) opener contents closer :: rest) :
      readRules nested stop .nothing ns = readRules nested stop (.style line []) ns := by
    subst h
    cases head with
    | nil => exact readRules_styleStart (fun kind none => by cases none) rest
    | cons n head => exact readRules_styleStart (begins n rfl) _
  rw [begun _ rfl, readRules_style flat, readRules_styleBlock rfl, List.append_nil, readStyleBlock, body]
  simp only [Reading.discard, Reading.item, Reading.mk_append, List.append_nil, List.nil_append]

theorem readRules_bare {nested : Bool} {stop : Ending} {first : Node} {head : List Node}
    (begins : Level.BeginsStyle nested first) (flat : ∀ n ∈ first :: head, n.isCurly = false) :
    readRules nested stop .nothing (first :: head) = .issue .noBlock stop.line ++ endOfRules nested stop := by
  have whole : readRules nested stop (.style first.line []) ((first :: head) ++ []) =
      readRules nested stop (.style first.line ((first :: head).reverse ++ [])) [] := readRules_style flat
  rw [List.append_nil] at whole
  rw [readRules_styleStart begins, whole]
  rfl

theorem readDeclarations_unexpected {stop : Ending} {n : Node} (h : Level.BeginsNothing n) (rest : List Node) :
    readDeclarations stop .nothing (n :: rest) =
      .issue (.unexpected n.first.kind) n.line ++ readDeclarations stop .skipped rest := by
  have step : declarationStep stop .nothing n = (.issue (.unexpected n.first.kind) n.line, .skipped) := by
    rw [declarationStep]
    split
    · next white => exact absurd (by simp [Level.idle]) (h _ white).1
    · next semicolon => exact absurd (by simp [Level.idle]) (h _ semicolon).1
    · next name keyword => exact absurd rfl ((h _ keyword).2.1 name)
    · next name word => exact absurd rfl ((h _ word).2.2 name)
    · rfl
  rw [readDeclarations_cons, step]

theorem next_append (stop : Ending) (ns rest : List Node) :
    stop.next (ns ++ rest) = (ns.head?.map Node.line).getD (stop.next rest) := by
  cases ns <;> rfl

/-- What is skipped adds nothing, up to a semicolon. -/
theorem readDeclarations_skipping {stop : Ending} {skipped rest : List Node} (h : UpToSemicolon skipped rest) :
    readDeclarations stop .skipped (skipped ++ rest) = readDeclarations stop .nothing rest := by
  rw [readDeclarations_idle fun n hn => ?_, readDeclarations_skippedEnd h.2]
  rw [declarationStep, if_neg (h.1 n hn)]

/-- Behind the prelude of an at-rule without a block. -/
theorem atSemicolon {semicolon : Option Token} {rest : List Node} (ends : ∀ t, semicolon = some t → t.kind = .semicolon)
    (last : semicolon = none → rest = []) :
    (∀ n ∈ (semicolon.toList.map Node.leaf ++ rest).head?, n.kind? = some .semicolon) ∧
      (semicolon.toList.map Node.leaf ++ rest).drop 1 = rest := by
  cases semicolon with
  | none =>
      obtain rfl := last rfl
      exact ⟨(fun n none => by cases none), rfl⟩
  | some t => exact ⟨(fun n same => Option.some.inj same ▸ congrArg some (ends t rfl)), rfl⟩

mutual
theorem readRules_nodes {nested : Bool} (stop : Ending) (rest : List Node) : ∀ c : Clause, c.Fits (.rules nested) rest →
    readRules nested stop .nothing (c.nodes ++ rest) =
      ⟨c.rule?.toList, c.issues stop (stop.next rest)⟩ ++ readRules nested stop .nothing rest
  | .idle t, h => readRules_idle h rest
  | .stray t, h => readRules_stray h.2 rest
  | .style head opener body closer, h => by
      obtain ⟨⟨_, same, begins⟩, flat, fit⟩ := h
      cases same
      rw [nodes, List.append_assoc]
      exact readRules_styleRule begins flat (readDeclarations_listNodes _ body fit)
  | .bare first head, h => by
      obtain ⟨⟨_, same, begins⟩, flat, rfl⟩ := h
      cases same
      rw [nodes, List.append_nil]
      exact readRules_bare begins flat
  | .block keyword word prelude opener body closer, h => by
      obtain ⟨kind, inside, fit⟩ := h
      rw [nodes, List.cons_append, List.append_assoc, readRules_keyword kind, readRules_prelude inside,
        List.singleton_append, readRules_preludeBlock rfl, List.append_nil,
        readAtBlock_body (fun level => readRules_listNodes _ body (level ▸ fit))
          fun level => readDeclarations_listNodes _ body (level ▸ fit)]
      rfl
  | .statement keyword word prelude semicolon, h => by
      obtain ⟨kind, inside, ends, last⟩ := h
      rw [nodes, List.cons_append, List.append_assoc, readRules_keyword kind, readRules_prelude inside, List.append_nil]
      obtain ⟨first, behind⟩ := atSemicolon ends last
      rw [readRules_preludeEnd first, behind]
      rfl
  | .declaration .., h => absurd h.1 (by simp)
  | .noColon .., h => absurd h.1 (by simp)
  | .unexpected .., h => absurd h.1 (by simp)

theorem readDeclarations_nodes (stop : Ending) (rest : List Node) : ∀ c : Clause, c.Fits .declarations rest →
    readDeclarations stop .nothing (c.nodes ++ rest) =
      ⟨c.declaration?.toList, c.issues stop (stop.next rest)⟩ ++ readDeclarations stop .nothing rest
  | .idle t, h => readDeclarations_idleToken h rest
  | .stray t, h => by obtain ⟨⟨_, other⟩, -⟩ := h; cases other
  | .style head opener body closer, h => by obtain ⟨⟨_, other, -⟩, -⟩ := h; cases other
  | .bare first head, h => by obtain ⟨⟨_, other, -⟩, -⟩ := h; cases other
  | .block keyword word prelude opener body closer, h => by
      obtain ⟨kind, inside, fit⟩ := h
      rw [nodes, List.cons_append, List.append_assoc, readDeclarations_keyword kind, readDeclarations_prelude inside,
        List.singleton_append, readDeclarations_preludeBlock rfl,
        readAtBlock_body (fun level => readRules_listNodes _ body (level ▸ fit))
          fun level => readDeclarations_listNodes _ body (level ▸ fit)]
      rfl
  | .statement keyword word prelude semicolon, h => by
      obtain ⟨kind, inside, ends, last⟩ := h
      rw [nodes, List.cons_append, List.append_assoc, readDeclarations_keyword kind, readDeclarations_prelude inside]
      obtain ⟨first, behind⟩ := atSemicolon ends last
      rw [readDeclarations_preludeEnd first, behind]
      rfl
  | .declaration property name space colon blank value, h => by
      obtain ⟨-, kind, white, colonKind, gap, visible, ends⟩ := h
      have behind : declarationStep stop (.colon name property.line) (.leaf colon) =
          ({}, .value name property.line []) := by
        simp only [declarationStep, Node.kind?, colonKind]
      have passed (n : Node) (hn : n ∈ blank) : declarationStep stop (.value name property.line []) n =
          ({}, .value name property.line []) := by
        simp [declarationStep, gap n hn]
      rw [nodes, List.cons_append, List.append_assoc, readDeclarations_property kind white, List.cons_append,
        readDeclarations_cons, behind, Reading.empty_append, List.append_assoc, readDeclarations_idle passed,
        readDeclarations_value ends.1 (.inr visible), readDeclarations_valueEnd ends.2, List.append_nil]
      rfl
  | .noColon property name space skipped, h => by
      obtain ⟨-, kind, white, other, ends⟩ := h
      have apart : ∀ n ∈ (skipped ++ rest).head?, n.kind? ≠ some .whitespace ∧ n.kind? ≠ some .colon := by
        cases skipped with
        | nil => exact fun n hn => by rw [ends.2 n hn]; decide
        | cons n skipped => exact other
      rw [nodes, List.cons_append, List.append_assoc, readDeclarations_property kind white,
        readDeclarations_noColon apart, next_append, readDeclarations_skipping ends]
      rfl
  | .unexpected first skipped, h => by
      obtain ⟨-, begins, ends⟩ := h
      rw [nodes, List.cons_append, readDeclarations_unexpected begins, readDeclarations_skipping ends]
      rfl

theorem readRules_listNodes {nested : Bool} (stop : Ending) : ∀ cs : List Clause, AllFit (.rules nested) cs →
    readRules nested stop .nothing (listNodes cs) = ⟨listRules cs, listIssues stop cs⟩ ++ endOfRules nested stop
  | [], _ => rfl
  | c :: cs, h => by
      rw [listNodes, readRules_nodes stop (listNodes cs) c h.1, readRules_listNodes stop cs h.2, ← Reading.append_assoc]
      rfl

theorem readDeclarations_listNodes (stop : Ending) : ∀ cs : List Clause, AllFit .declarations cs →
    readDeclarations stop .nothing (listNodes cs) = ⟨cs.filterMap declaration?, listIssues stop cs⟩
  | [], _ => rfl
  | c :: cs, h => by
      rw [listNodes, readDeclarations_nodes stop (listNodes cs) c h.1, readDeclarations_listNodes stop cs h.2,
        List.filterMap_cons]
      cases c.declaration? <;> rfl
end

/-! Every list of nodes has an outline. -/

/-- Nodes whose blocks are known to have outlines. -/
def HaveBodies (ns : List Node) : Prop :=
  ∀ opening opener contents closer, .block opening opener contents closer ∈ ns →
    ∀ level, ∃ cs, AllFit level cs ∧ listNodes cs = contents

theorem exists_atRule {t : Token} {word : String} (kind : t.kind = .atKeyword word) (level : Level) (ns : List Node)
    (bodies : HaveBodies ns) : ∃ (c : Clause) (rest : List Node), .leaf t :: ns = c.nodes ++ rest ∧ c.Fits level rest := by
  obtain ⟨prelude, rest, rfl, inside, stopped⟩ :=
    exists_split (fun n : Node => n.isCurly || decide (n.kind? = some .semicolon)) ns
  replace inside : ∀ n ∈ prelude, InPrelude n := fun n hn => by simpa [InPrelude] using inside n hn
  cases rest with
  | nil =>
      exact ⟨.statement t word prelude none, [], by simp [nodes], kind, inside, (fun u none => by cases none), fun _ => rfl⟩
  | cons n rest =>
      rcases Bool.or_eq_true_iff.mp (stopped n rfl) with curly | semicolon
      · obtain ⟨opener, contents, closer, rfl⟩ := block_of_isCurly curly
        obtain ⟨body, fit, rfl⟩ := bodies (.bracket .curly) opener contents closer (by simp) (.ofName word.toLower)
        exact ⟨.block t word prelude opener body closer, rest, by simp [nodes], kind, inside, fit⟩
      · obtain ⟨u, rfl, semicolonKind⟩ := leaf_of_kind? (of_decide_eq_true semicolon)
        exact ⟨.statement t word prelude (some u), rest, by simp [nodes], kind, inside,
          (fun v same => Option.some.inj same ▸ semicolonKind), fun none => by cases none⟩

theorem exists_styleRule {nested : Bool} {n : Node} (begins : Level.BeginsStyle nested n) (ns : List Node)
    (bodies : HaveBodies (n :: ns)) :
    ∃ (c : Clause) (rest : List Node), n :: ns = c.nodes ++ rest ∧ c.Fits (.rules nested) rest := by
  obtain ⟨head, rest, split, flat, stopped⟩ := exists_split Node.isCurly (n :: ns)
  cases rest with
  | nil =>
      rw [List.append_nil] at split
      subst split
      exact ⟨.bare n ns, [], by simp [nodes], ⟨nested, rfl, begins⟩, flat, rfl⟩
  | cons m rest =>
      obtain ⟨opener, contents, closer, rfl⟩ := block_of_isCurly (stopped m rfl)
      obtain ⟨body, fit, rfl⟩ := bodies (.bracket .curly) opener contents closer (by simp [split]) .declarations
      refine ⟨.style head opener body closer, rest, by simp [nodes, split], ⟨nested, rfl, fun first hf => ?_⟩, flat, fit⟩
      cases head with
      | nil => cases hf
      | cons k head =>
          obtain rfl := Option.some.inj hf
          rw [List.cons_append] at split
          rwa [← (List.cons.inj split).1]

theorem exists_upToSemicolon (ns : List Node) : ∃ part rest, ns = part ++ rest ∧ UpToSemicolon part rest := by
  obtain ⟨part, rest, split, before, stopped⟩ := exists_split (fun n : Node => decide (n.kind? = some .semicolon)) ns
  exact ⟨part, rest, split, (fun n hn => by simpa using before n hn), fun n hn => by simpa using stopped n hn⟩

theorem exists_blank (ns : List Node) :
    ∃ blank rest, ns = blank ++ rest ∧ Blank blank ∧ ∀ n ∈ rest.head?, n.kind? ≠ some .whitespace := by
  obtain ⟨blank, rest, split, white, visible⟩ := exists_split (fun n => n.kind? != some .whitespace) ns
  exact ⟨blank, rest, split, (fun n hn => by simpa using white n hn), fun n hn => by simpa using visible n hn⟩

theorem exists_declaration {t : Token} {name : String} (kind : t.kind = .ident name) (ns : List Node) :
    ∃ (c : Clause) (rest : List Node), .leaf t :: ns = c.nodes ++ rest ∧ c.Fits .declarations rest := by
  obtain ⟨space, rest, rfl, white, visible⟩ := exists_blank ns
  by_cases colon : ∃ n ∈ rest.head?, n.kind? = some .colon
  · obtain ⟨u, rest, rfl, colonKind⟩ := leaf_head colon
    obtain ⟨blank, rest, rfl, gap, visible⟩ := exists_blank rest
    obtain ⟨value, rest, rfl, ends⟩ := exists_upToSemicolon rest
    refine ⟨.declaration t name space u blank value, rest, by simp [nodes], rfl, kind, white, colonKind, gap, ?_, ends⟩
    cases value with
    | nil => exact fun n none => by cases none
    | cons m value => exact visible
  · obtain ⟨skipped, rest, rfl, ends⟩ := exists_upToSemicolon rest
    refine ⟨.noColon t name space skipped, rest, by simp [nodes], rfl, kind, white, ?_, ends⟩
    cases skipped with
    | nil => exact fun n none => by cases none
    | cons m skipped => exact fun n hn => ⟨visible n hn, fun same => colon ⟨n, hn, same⟩⟩

theorem exists_clause (level : Level) (n : Node) (ns : List Node) (bodies : HaveBodies (n :: ns)) :
    ∃ (c : Clause) (rest : List Node), n :: ns = c.nodes ++ rest ∧ c.Fits level rest := by
  have behind : HaveBodies ns := fun opening opener contents closer hn =>
    bodies opening opener contents closer (List.mem_cons_of_mem n hn)
  by_cases idle : ∃ kind, n.kind? = some kind ∧ kind ∈ level.idle
  · obtain ⟨kind, same, idle⟩ := idle
    obtain ⟨t, rfl, rfl⟩ := leaf_of_kind? same
    exact ⟨.idle t, ns, rfl, idle⟩
  by_cases keyword : ∃ word, n.kind? = some (.atKeyword word)
  · obtain ⟨word, same⟩ := keyword
    obtain ⟨t, rfl, kind⟩ := leaf_of_kind? same
    exact exists_atRule kind level ns behind
  cases level with
  | rules nested =>
      by_cases brace : n.kind? = some (.closing .curly)
      · obtain ⟨t, rfl, kind⟩ := leaf_of_kind? brace
        exact ⟨.stray t, ns, rfl, ⟨nested, rfl⟩, kind⟩
      · refine exists_styleRule (fun kind same => ⟨fun mem => idle ⟨kind, same, mem⟩, ?_, ?_⟩) ns bodies
        · exact fun closing => brace (closing ▸ same)
        · exact fun word at' => keyword ⟨word, at' ▸ same⟩
  | declarations =>
      by_cases property : ∃ name, n.kind? = some (.ident name)
      · obtain ⟨name, same⟩ := property
        obtain ⟨t, rfl, kind⟩ := leaf_of_kind? same
        exact exists_declaration kind ns
      · obtain ⟨skipped, rest, rfl, ends⟩ := exists_upToSemicolon ns
        refine ⟨.unexpected n skipped, rest, rfl, rfl, fun kind same => ⟨fun mem => idle ⟨kind, same, mem⟩, ?_, ?_⟩, ends⟩
        · exact fun word at' => keyword ⟨word, at' ▸ same⟩
        · exact fun name ident => property ⟨name, ident ▸ same⟩

/-- The tokens of what is in a block are fewer than those of a list with the block. -/
theorem length_contents {opening : Opening} {opener : Token} {contents ns : List Node} {closer : Option Token}
    (h : .block opening opener contents closer ∈ ns) :
    (Node.listTokens contents).length < (Node.listTokens ns).length := by
  obtain ⟨before, behind, rfl⟩ := List.append_of_mem h
  rw [Node.listTokens_append, Node.listTokens, Node.tokens]
  simp only [List.length_append, List.length_cons]
  omega

theorem exists_listNodes (level : Level) (ns : List Node) : ∃ cs, AllFit level cs ∧ listNodes cs = ns := by
  generalize size : (Node.listTokens ns).length = m
  induction m using Nat.strongRecOn generalizing level ns with
  | ind m ih =>
      subst size
      cases ns with
      | nil => exact ⟨[], trivial, rfl⟩
      | cons n ns =>
          have bodies : HaveBodies (n :: ns) := fun opening opener contents closer mem inner =>
            ih _ (length_contents mem) inner contents rfl
          obtain ⟨c, rest, split, fit⟩ := exists_clause level n ns bodies
          have shorter : (Node.listTokens rest).length < (Node.listTokens (n :: ns)).length := by
            have := length_listTokens_pos c.nodes_ne_nil
            rw [split, Node.listTokens_append, List.length_append]
            omega
          obtain ⟨cs, fits, rfl⟩ := ih _ shorter level rest rfl
          exact ⟨c :: cs, ⟨fit, fits⟩, split.symm⟩

end Clause

/-- The nodes of a source, without its end mark. -/
def sourceNodes (css : String) : List Node :=
  Node.ofTokens ((tokenize css).takeWhile (·.kind ≠ .endOfSource))

/-- How a source ends. -/
def sourceEnd (css : String) : Ending := ⟨false, Stylesheet.endLine (tokenize css)⟩

theorem tokenize_eq (css : String) :
    tokenize css = Node.listTokens (sourceNodes css) ++ [⟨.endOfSource, Place.after {} (normalize css.toList), []⟩] := by
  obtain ⟨body, whole, inside⟩ := (tokensFrom_laid {} (normalize css.toList)).finish
  replace whole : tokenize css = body ++ [⟨.endOfSource, Place.after {} (normalize css.toList), []⟩] := whole
  have cut : (tokenize css).takeWhile (·.kind ≠ .endOfSource) = body := by
    rw [whole, List.takeWhile_append_of_pos fun t ht => decide_eq_true (inside t ht).1,
      List.takeWhile_cons_of_neg (by simp), List.append_nil]
  rw [sourceNodes, listTokens_ofTokens, cut, whole]

theorem areNested_sourceNodes (css : String) : Node.AreNested none true (sourceNodes css) := by
  refine areNested_ofTokens fun t ht => ?_
  simpa using List.mem_takeWhile_imp ht

section
variable {ns : List Node} (nested : Node.AreNested none true ns) (stop : Place)
include nested

theorem takeWhile_nested :
    (Node.listTokens ns ++ [(⟨.endOfSource, stop, []⟩ : Token)]).takeWhile (·.kind ≠ .endOfSource) = Node.listTokens ns := by
  rw [List.takeWhile_append_of_pos fun t ht => decide_eq_true (nested.ne_end ns t ht), List.takeWhile_cons_of_neg (by simp),
    List.append_nil]

/-- The end of a list of tokens is where its end mark is. -/
theorem endLine_nested : Stylesheet.endLine (Node.listTokens ns ++ [⟨.endOfSource, stop, []⟩]) = stop.line := by
  have inside : (Node.listTokens ns).find? (·.kind = .endOfSource) = none :=
    List.find?_eq_none.mpr fun t ht => by simpa using nested.ne_end ns t ht
  rw [Stylesheet.endLine, List.find?_append, inside]
  rfl

end

/-- A source ends on its last line. -/
theorem line_sourceEnd (css : String) : (sourceEnd css).line = 1 + (normalize css.toList).count '\n' := by
  rw [sourceEnd, tokenize_eq, endLine_nested (areNested_sourceNodes css)]
  rfl

/-- The style sheet of tokens is what the outline of their nodes says. -/
theorem ofTokens_outline {cs : List Clause} (fits : Clause.AllFit (.rules false) cs)
    (nested : Node.AreNested none true (Clause.listNodes cs)) (stop : Place) :
    Stylesheet.ofTokens (Node.listTokens (Clause.listNodes cs) ++ [⟨.endOfSource, stop, []⟩]) =
      ⟨Clause.listRules cs, Clause.listIssues ⟨false, stop.line⟩ cs⟩ := by
  have read := Clause.readRules_listNodes ⟨false, stop.line⟩ cs fits
  rw [endOfRules, Bool.false_and, if_neg Bool.false_ne_true, Reading.append_empty] at read
  rw [Stylesheet.ofTokens, takeWhile_nested nested, endLine_nested nested, ofTokens_listTokens nested, read]

/-- The outline of a source. -/
structure IsOutline (css : String) (cs : List Clause) : Prop where
  fits : Clause.AllFit (.rules false) cs
  nodes : Clause.listNodes cs = sourceNodes css

theorem exists_outline (css : String) : ∃ cs, IsOutline css cs := by
  obtain ⟨cs, fits, nodes⟩ := Clause.exists_listNodes (.rules false) (sourceNodes css)
  exact ⟨cs, fits, nodes⟩

/-- The style sheet of a source is what its outline says. -/
theorem IsOutline.ofText {css : String} {cs : List Clause} (h : IsOutline css cs) :
    Stylesheet.ofText css = ⟨Clause.listRules cs, Clause.listIssues (sourceEnd css) cs⟩ := by
  have nested : Node.AreNested none true (Clause.listNodes cs) := h.nodes ▸ areNested_sourceNodes css
  rw [Stylesheet.ofText, sourceEnd, tokenize_eq, ← h.nodes, ofTokens_outline h.fits nested, endLine_nested nested]

end StyleAudit.Css
