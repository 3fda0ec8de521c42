import StyleAudit.Proofs.NestedNodes
import StyleAudit.Proofs.ReadingSteps
/-!
The texts that a style sheet keeps, and where they stand. Each selector, prelude and value is the text of a run of tokens;
the runs lie in the source one behind the other, in the order in which the style sheet holds the texts.
-/
namespace StyleAudit.Css

open Node (listTokens listTokens_append)

/-! The texts of a style sheet. -/

/-- The text of tokens, as the style sheet holds it. -/
def textOfTokens (ts : List Token) : String := String.ofList (compactText ts)

/-- The value of a declaration, unless the `!important` mark was cut off from it. -/
def Declaration.texts (d : Declaration) : List String := if d.important then [] else [d.text]

def StyleRule.texts (r : StyleRule) : List String := r.selectors ++ r.declarations.flatMap Declaration.texts

mutual
/-- The selectors, preludes and values of a rule, in the order of the source. What `@charset` and `@import` hold is not the
text of their prelude. -/
def Rule.texts : Rule → List String
  | .style r => r.texts
  | .group _ _ prelude rules => prelude :: Rule.allTexts rules
  | .keyframes _ _ name frames => name :: frames.flatMap StyleRule.texts
  | .charset .. | .imported .. => []
  | .descriptors _ _ prelude ds => prelude :: ds.flatMap Declaration.texts
  | .statement _ _ prelude => [prelude]

def Rule.allTexts : List Rule → List String
  | [] => []
  | r :: rest => r.texts ++ Rule.allTexts rest
end

def Stylesheet.texts (s : Stylesheet) : List String := Rule.allTexts s.rules

theorem Rule.allTexts_eq (rules : List Rule) : Rule.allTexts rules = rules.flatMap Rule.texts := by
  induction rules with
  | nil => rfl
  | cons r rest ih => rw [allTexts, ih, List.flatMap_cons]

/-! Runs of tokens. -/

/-- The tokens right behind which a text may begin. -/
def TokenKind.opensText : TokenKind → Bool
  | .comma | .colon | .semicolon | .atKeyword _ | .opening .curly | .closing .curly | .commentOpen | .commentClose => true
  | _ => false

/-- The tokens in front of which a text may end. -/
def TokenKind.closesText : TokenKind → Bool
  | .comma | .semicolon | .opening .curly | .closing .curly | .endOfSource => true
  | _ => false

/-- Runs of tokens that lie one behind the other in a list. Each begins behind a token that opens a text, or behind the
white space there, and reaches to a token that closes one. `fresh` tells whether a run may begin at once. -/
inductive Excerpts : Bool → List (List Token) → List Token → Prop
  | none {fresh : Bool} {ts : List Token} : Excerpts fresh [] ts
  | skip {fresh : Bool} {runs : List (List Token)} {t : Token} {ts : List Token} :
      Excerpts (t.kind.opensText || fresh && t.kind.isWhitespace) runs ts → Excerpts fresh runs (t :: ts)
  | run {runs : List (List Token)} {run ts : List Token} {stop : Token} : stop.kind.closesText = true →
      Excerpts false runs (stop :: ts) → Excerpts true (run :: runs) (run ++ stop :: ts)

namespace Excerpts
variable {fresh : Bool} {runs : List (List Token)} {ts : List Token}

theorem mono (h : Excerpts fresh runs ts) {other : Bool} (fresher : fresh = true → other = true) : Excerpts other runs ts := by
  induction h generalizing other with
  | none => exact .none
  | skip _ ih =>
      refine .skip (ih fun opens => ?_)
      rw [Bool.or_eq_true, Bool.and_eq_true] at opens ⊢
      exact opens.imp id fun both => ⟨fresher both.1, both.2⟩
  | run closes later =>
      rw [fresher rfl]
      exact .run closes later

theorem behind (h : Excerpts false runs ts) (front : List Token) : Excerpts fresh runs (front ++ ts) := by
  induction front generalizing fresh with
  | nil => exact h.mono nofun
  | cons t front ih => exact .skip ih

/-- Runs may be passed over. -/
theorem sublist (h : Excerpts fresh runs ts) {some : List (List Token)} (part : some.Sublist runs) :
    Excerpts fresh some ts := by
  induction h generalizing some with
  | none =>
      obtain rfl := List.sublist_nil.mp part
      exact .none
  | skip _ ih => exact .skip (ih part)
  | run closes later ih =>
      cases part with
      | cons _ part => exact (ih part).behind _
      | cons_cons _ part => exact .run closes (ih part)

/-- Each run stands in the list, in front of what closes it. -/
theorem mem (h : Excerpts fresh runs ts) {run : List Token} (mem : run ∈ runs) :
    ∃ before stop behind, ts = before ++ (run ++ stop :: behind) ∧ stop.kind.closesText = true := by
  induction h with
  | none => cases mem
  | @skip _ _ t _ _ ih =>
      obtain ⟨before, stop, behind, rfl, closes⟩ := ih mem
      exact ⟨t :: before, stop, behind, rfl, closes⟩
  | @run _ first ts stop closes _ ih =>
      rcases List.mem_cons.mp mem with rfl | later
      · exact ⟨[], stop, ts, rfl, closes⟩
      · obtain ⟨before, stop', behind, same, closes'⟩ := ih later
        exact ⟨first ++ before, stop', behind, by rw [same, List.append_assoc], closes'⟩

end Excerpts

/-- Texts that are those of runs in a list of tokens, whatever closes the last of them behind the list. -/
def Extracts (fresh : Bool) (texts : List String) (tokens : List Token) : Prop :=
  ∃ runs, runs.map textOfTokens = texts ∧ ∀ stop behind more, stop.kind.closesText = true →
    Excerpts false more (stop :: behind) → Excerpts fresh (runs ++ more) (tokens ++ stop :: behind)

namespace Extracts
variable {fresh : Bool} {texts : List String} {ts : List Token}

theorem none : Extracts fresh [] ts := ⟨[], rfl, fun _ _ _ _ h => h.behind ts⟩

theorem mono (h : Extracts fresh texts ts) {other : Bool} (fresher : fresh = true → other = true) :
    Extracts other texts ts := by
  obtain ⟨runs, same, excerpts⟩ := h
  exact ⟨runs, same, fun stop behind more closes later => (excerpts stop behind more closes later).mono fresher⟩

theorem behind (h : Extracts false texts ts) (front : List Token) : Extracts fresh texts (front ++ ts) := by
  obtain ⟨runs, same, excerpts⟩ := h
  refine ⟨runs, same, fun stop behind more closes later => ?_⟩
  rw [List.append_assoc]
  exact (excerpts stop behind more closes later).behind front

theorem skip {t : Token} (h : Extracts (t.kind.opensText || fresh && t.kind.isWhitespace) texts ts) :
    Extracts fresh texts (t :: ts) := by
  obtain ⟨runs, same, excerpts⟩ := h
  exact ⟨runs, same, fun stop behind more closes later => .skip (excerpts stop behind more closes later)⟩

theorem opened (h : Extracts true texts ts) {t : Token} (opens : t.kind.opensText = true) : Extracts fresh texts (t :: ts) :=
  skip (by rwa [opens, Bool.true_or])

theorem run : Extracts true [textOfTokens ts] ts := ⟨[ts], rfl, fun _ _ _ closes later => .run closes later⟩

theorem sublist (h : Extracts fresh texts ts) {some : List String} (part : some.Sublist texts) : Extracts fresh some ts := by
  obtain ⟨runs, rfl, excerpts⟩ := h
  obtain ⟨kept, left, rfl⟩ := List.sublist_map_iff.mp part
  exact ⟨kept, rfl, fun stop behind more closes later =>
    (excerpts stop behind more closes later).sublist (left.append_right more)⟩

/-- Texts in front of a token that closes them, and texts from there on. -/
theorem append (h : Extracts fresh texts ts) {stop : Token} (closes : stop.kind.closesText = true) {more : List String}
    {behind : List Token} (later : Extracts false more (stop :: behind)) :
    Extracts fresh (texts ++ more) (ts ++ stop :: behind) := by
  obtain ⟨runs, rfl, excerpts⟩ := h
  obtain ⟨runs', rfl, excerpts'⟩ := later
  refine ⟨runs ++ runs', List.map_append, fun last behind' more closes' final => ?_⟩
  rw [List.append_assoc, List.append_assoc, List.cons_append]
  exact excerpts stop (behind ++ last :: behind') (runs' ++ more) closes (excerpts' last behind' more closes' final)

end Extracts

/-! Selectors. -/

/-- The first selector of a list reaches to the first comma outside of brackets, or to the end. -/
theorem splitSelectors_first (depth : Nat) (ts : List Token) :
    splitSelectors depth ts = [ts] ∨ ∃ first comma rest, ts = first ++ comma :: rest ∧ comma.kind = .comma ∧
      splitSelectors depth ts = first :: splitSelectors 0 rest := by
  induction ts generalizing depth with
  | nil => exact .inl rfl
  | cons t ts ih =>
      rw [splitSelectors]
      split
      · next comma => exact .inr ⟨[], t, ts, rfl, comma.1, rfl⟩
      · dsimp only
        rcases ih (if t.kind.opensBlock then depth + 1 else if t.kind.closesBlock then depth - 1 else depth) with
          last | ⟨first, comma, rest, same, kind, split⟩
        · rw [last]
          exact .inl rfl
        · rw [split]
          exact .inr ⟨t :: first, comma, rest, by rw [same]; rfl, kind, rfl⟩

theorem extracts_splitSelectors (depth : Nat) (ts : List Token) :
    Extracts true ((splitSelectors depth ts).map textOfTokens) ts := by
  induction size : ts.length using Nat.strongRecOn generalizing depth ts with
  | _ n ih =>
    rcases splitSelectors_first depth ts with last | ⟨first, comma, rest, rfl, kind, split⟩
    · rw [last]
      exact .run
    · rw [split, List.map_cons]
      have short : rest.length < n := by
        rw [← size, List.length_append, List.length_cons]
        omega
      exact Extracts.run.append (by rw [kind]; rfl) ((ih _ short 0 rest rfl).opened (by rw [kind]; rfl))

theorem extracts_selectors (line : Nat) (nodes : List Node) :
    Extracts true (selectors line nodes).items (listTokens nodes.reverse) :=
  (extracts_splitSelectors 0 (listTokens nodes.reverse)).sublist List.filter_sublist

/-! One node at a time. -/

/-- The texts in the block of a node, read as rules or as declarations. -/
def Node.ExtractsInside : Node → Prop
  | .leaf _ => True
  | .block _ _ contents _ => ∀ stop,
      Extracts true (Rule.allTexts (readRules true stop .nothing contents).items) (listTokens contents) ∧
        Extracts false ((readDeclarations stop .nothing contents).items.flatMap Declaration.texts) (listTokens contents)

/-- Texts in a block, and texts behind it. -/
theorem extracts_block {opening : Opening} {opener : Token} {contents : List Node} {closer : Option Token} {last : Bool}
    {around : Option Bracket} {inner later : List String} {rest : List Token}
    (nested : (Node.block opening opener contents closer).IsNested around last)
    (curly : (Node.block opening opener contents closer).isCurly = true) (inside : Extracts true inner (listTokens contents))
    (behind : Extracts true later rest) (final : last = true → later = [] ∧ rest = []) :
    Extracts false (inner ++ later) ((Node.block opening opener contents closer).tokens ++ rest) := by
  have opens : opener.kind = .opening .curly := nested.isCurly_iff.mp curly
  obtain rfl : opening = .bracket .curly := by
    unfold Node.isCurly at curly
    split at curly
    · next same => exact (Node.block.inj same).1
    · cases curly
  rw [Node.tokens, List.cons_append]
  refine Extracts.opened ?_ (by rw [opens]; rfl)
  cases closer with
  | some t =>
      have closes : t.kind = .closing .curly := nested.2.2.1 t rfl
      rw [Option.toList_some, List.append_assoc, List.singleton_append]
      exact inside.append (by rw [closes]; rfl) (behind.opened (by rw [closes]; rfl))
  | none =>
      obtain ⟨rfl, rfl⟩ := final (nested.2.2.2 rfl)
      rw [Option.toList_none, List.append_nil, List.append_nil, List.append_nil]
      exact inside

/-- Texts in front of a block, and texts from there on. -/
theorem extracts_front {front more : List String} {ts rest : List Token} {n : Node} {last : Bool} {around : Option Bracket}
    (nested : n.IsNested around last) (curly : n.isCurly = true) (h : Extracts true front ts)
    (block : Extracts false more (n.tokens ++ rest)) : Extracts true (front ++ more) (ts ++ (n.tokens ++ rest)) := by
  have opens := nested.isCurly_iff.mp curly
  cases n with
  | leaf t => cases curly
  | block opening opener contents closer => exact h.append (by rw [show opener.kind = _ from opens]; rfl) block

/-- What a rule still waits for has been read from these tokens. -/
def PendingRule.tokens : PendingRule → List Token
  | .nothing => []
  | .style _ nodes | .atRule _ _ nodes => listTokens nodes.reverse

theorem listTokens_push (nodes : List Node) (n : Node) :
    listTokens (n :: nodes).reverse = listTokens nodes.reverse ++ n.tokens := by
  rw [List.reverse_cons, listTokens_append, listTokens, listTokens, List.append_nil]

theorem extracts_withoutBlock (name : String) (line : Nat) (prelude : List Node) :
    Extracts true (atRuleWithoutBlock name line prelude).texts (listTokens prelude.reverse) := by
  unfold atRuleWithoutBlock
  dsimp only
  split
  · exact .none
  · split
    · split <;> exact .none
    · exact .run

theorem extracts_ruleEnd (nested : Bool) (stop : Ending) (pending : PendingRule) :
    Extracts true (Rule.allTexts (ruleEnd nested stop pending).items) pending.tokens := by
  have none : (endOfRules nested stop).items = [] := by
    unfold endOfRules
    split <;> rfl
  cases pending with
  | nothing => rw [ruleEnd, none]; exact .none
  | style line nodes => rw [ruleEnd, Reading.items_append, none]; exact .none
  | atRule name line nodes =>
      rw [ruleEnd, Reading.items_append, none, List.append_nil, Rule.allTexts_eq]
      have one := extracts_withoutBlock name line nodes
      rwa [← List.flatMap_singleton (f := Rule.texts)] at one

/-- The frames of an animation are the style rules in its block. -/
theorem frames_sublist (rules : List Rule) :
    ((rules.filterMap Rule.style?).flatMap StyleRule.texts).Sublist (Rule.allTexts rules) := by
  induction rules with
  | nil => exact List.Sublist.refl _
  | cons r rest ih =>
      cases r with
      | style r => exact (List.Sublist.refl r.texts).append ih
      | _ => exact ih.trans (List.sublist_append_right _ _)

section
variable {nested : Bool} {stop : Ending} {next : Nat} {n : Node} {rest : List Node} {around : Option Bracket} {last : Bool}
  (isNested : n.IsNested around (last && rest.isEmpty)) (inside : n.ExtractsInside)
include isNested inside

omit isNested inside in
/-- Nothing is read behind the last node. -/
theorem texts_atEnd (h : (last && rest.isEmpty) = true) :
    Rule.allTexts (readRules nested stop .nothing rest).items = [] ∧ listTokens rest = [] := by
  obtain rfl := List.isEmpty_iff.mp (Bool.and_eq_true_iff.mp h).2
  rw [readRules_nil, ruleEnd, endOfRules]
  exact ⟨by split <;> rfl, rfl⟩

theorem extracts_styleBlock (curly : n.isCurly = true) (line : Nat) (nodes : List Node)
    (ih : Extracts true (Rule.allTexts (readRules nested stop .nothing rest).items) (listTokens rest)) :
    Extracts true (Rule.allTexts (readStyleBlock stop line nodes n ++ readRules nested stop .nothing rest).items)
      (listTokens nodes.reverse ++ (n.tokens ++ listTokens rest)) := by
  cases n with
  | leaf t => cases curly
  | block opening opener contents closer =>
      have body : Extracts true _ _ := (inside (stop.ofCloser closer)).2.mono nofun
      have whole := extracts_front isNested curly (extracts_selectors line nodes)
        (extracts_block isNested curly body ih texts_atEnd)
      rw [readStyleBlock]
      simpa [Rule.allTexts_eq, Reading.discard, Reading.item, Rule.texts, StyleRule.texts, List.append_assoc] using whole

theorem extracts_atBlock (curly : n.isCurly = true) (name : String) (line : Nat) (nodes : List Node)
    (ih : Extracts true (Rule.allTexts (readRules nested stop .nothing rest).items) (listTokens rest)) :
    Extracts true (Rule.allTexts (readAtBlock stop name line nodes n ++ readRules nested stop .nothing rest).items)
      (listTokens nodes.reverse ++ (n.tokens ++ listTokens rest)) := by
  cases n with
  | leaf t => cases curly
  | block opening opener contents closer =>
      obtain ⟨rules, declarations⟩ := inside (stop.ofCloser closer)
      have front {inner : List String} (body : Extracts true inner (listTokens contents)) :
          Extracts true ([textOf nodes] ++ (inner ++ Rule.allTexts (readRules nested stop .nothing rest).items))
            (listTokens nodes.reverse ++ ((Node.block opening opener contents closer).tokens ++ listTokens rest)) :=
        extracts_front isNested curly .run (extracts_block isNested curly body ih texts_atEnd)
      rw [readAtBlock]
      dsimp only
      cases BlockKind.ofName name with
      | rules =>
          have whole := front rules
          simpa [Rule.allTexts_eq, Reading.discard, Reading.item, Rule.texts] using whole
      | keyframes =>
          have whole := front (rules.sublist (frames_sublist _))
          simpa [Rule.allTexts_eq, Reading.discard, Reading.item, Rule.texts] using whole
      | declarations =>
          have whole := front (declarations.mono nofun)
          have none (defect : Defect) : (if (stop.ofCloser closer).closed = true then {} else
              Reading.issue defect (stop.ofCloser closer).line : Reading Rule).items = [] := by
            split <;> rfl
          simpa [Rule.allTexts_eq, Reading.discard, Reading.item, Rule.texts, none] using whole

theorem extracts_ruleStep (pending : PendingRule)
    (ih : ∀ pending, Extracts true (Rule.allTexts (readRules nested stop pending rest).items)
      (pending.tokens ++ listTokens rest)) :
    Extracts true (Rule.allTexts ((ruleStep nested stop next pending n).1 ++
        readRules nested stop (ruleStep nested stop next pending n).2 rest).items)
      (pending.tokens ++ (n.tokens ++ listTokens rest)) := by
  have passed {t : Token} (opens : (t.kind.opensText || t.kind.isWhitespace) = true) :
      Extracts true (Rule.allTexts (readRules nested stop .nothing rest).items) (t :: listTokens rest) :=
    Extracts.skip (by rw [Bool.true_and, opens]; exact ih .nothing)
  cases pending with
  | nothing =>
      rw [ruleStep, PendingRule.tokens, List.nil_append]
      split
      · next blank =>
          obtain ⟨t, rfl, kind⟩ := leaf_of_kind? blank
          exact passed (by rw [kind]; rfl)
      · next name keyword =>
          obtain ⟨t, rfl, kind⟩ := leaf_of_kind? keyword
          exact (ih (.atRule name.toLower t.line [])).opened (by rw [kind]; rfl)
      · split
        · next curly => exact extracts_styleBlock isNested inside curly n.line [] (ih .nothing)
        · split
          · next closing =>
              obtain ⟨t, rfl, kind⟩ := leaf_of_kind? closing
              exact passed (by rw [kind]; rfl)
          · split
            · next mark =>
                rcases mark.1 with mark | mark
                · obtain ⟨t, rfl, kind⟩ := leaf_of_kind? mark
                  exact passed (by rw [kind]; rfl)
                · obtain ⟨t, rfl, kind⟩ := leaf_of_kind? mark
                  exact passed (by rw [kind]; rfl)
            · have later := ih (.style n.line [n])
              rwa [PendingRule.tokens, List.reverse_singleton, listTokens, listTokens, List.append_nil] at later
  | style line nodes =>
      rw [ruleStep]
      split
      · next curly => exact extracts_styleBlock isNested inside curly line nodes (ih .nothing)
      · have later := ih (.style line (n :: nodes))
        rwa [PendingRule.tokens, listTokens_push, List.append_assoc] at later
  | atRule name line nodes =>
      rw [ruleStep]
      split
      · next curly => exact extracts_atBlock isNested inside curly name line nodes (ih .nothing)
      · split
        · next semicolon =>
            obtain ⟨t, rfl, kind⟩ := leaf_of_kind? semicolon
            have later : Extracts false _ (t :: listTokens rest) := (ih .nothing).opened (by rw [kind]; rfl)
            have whole := (extracts_withoutBlock name line nodes).append (by rw [kind]; rfl) later
            simpa [Rule.allTexts_eq, Reading.item, PendingRule.tokens, Node.tokens] using whole
        · have later := ih (.atRule name line (n :: nodes))
          rwa [PendingRule.tokens, listTokens_push, List.append_assoc] at later

end

/-! Declarations. -/

/-- The value that a declaration still waits for the end of has been read from these tokens. -/
def PendingDeclaration.tokens : PendingDeclaration → List Token
  | .value _ _ nodes => listTokens nodes.reverse
  | .nothing | .colon .. | .skipped | .atRule .. => []

/-- Whether a text may begin where a declaration waits. -/
def PendingDeclaration.fresh : PendingDeclaration → Bool
  | .value .. => true
  | .nothing | .colon .. | .skipped | .atRule .. => false

theorem extracts_declaration (name : String) (line : Nat) (nodes : List Node) :
    Extracts true (declaration name line nodes).texts (listTokens nodes.reverse) := by
  rw [declaration]
  cases beforeImportant (ComponentValue.ofNodes nodes) with
  | some rest => exact .none
  | none => exact .run

theorem extracts_declarationEnd (stop : Ending) (pending : PendingDeclaration) :
    Extracts pending.fresh ((declarationEnd stop pending).items.flatMap Declaration.texts) pending.tokens := by
  cases pending with
  | value name line nodes =>
      rw [declarationEnd, Reading.item, List.flatMap_singleton]
      exact extracts_declaration name line nodes
  | _ => exact .none

theorem extracts_declarationStep {stop : Ending} {n : Node} {rest : List Node} (pending : PendingDeclaration)
    (ih : ∀ pending, Extracts pending.fresh ((readDeclarations stop pending rest).items.flatMap Declaration.texts)
      (pending.tokens ++ listTokens rest)) :
    Extracts pending.fresh (((declarationStep stop pending n).1 ++
        readDeclarations stop (declarationStep stop pending n).2 rest).items.flatMap Declaration.texts)
      (pending.tokens ++ (n.tokens ++ listTokens rest)) := by
  have passed (pending : PendingDeclaration) (idle : pending.fresh = false ∧ pending.tokens = []) (read : Reading Declaration)
      (none : read.items = []) {fresh : Bool} :
      Extracts fresh ((read ++ readDeclarations stop pending rest).items.flatMap Declaration.texts)
        (n.tokens ++ listTokens rest) := by
    have later := ih pending
    rw [idle.1, idle.2] at later
    rw [Reading.items_append, none]
    exact later.behind n.tokens
  cases pending with
  | nothing =>
      rw [declarationStep, PendingDeclaration.tokens, List.nil_append]
      split <;> exact passed _ ⟨rfl, rfl⟩ _ rfl
  | colon name line =>
      rw [declarationStep, PendingDeclaration.tokens, List.nil_append]
      split
      · exact passed _ ⟨rfl, rfl⟩ _ rfl
      · next colon =>
          obtain ⟨t, rfl, kind⟩ := leaf_of_kind? colon
          exact (ih (.value name line [])).opened (by rw [kind]; rfl)
      · exact passed _ ⟨rfl, rfl⟩ _ rfl
      · exact passed _ ⟨rfl, rfl⟩ _ rfl
  | value name line nodes =>
      rw [declarationStep]
      split
      · next semicolon =>
          obtain ⟨t, rfl, kind⟩ := leaf_of_kind? semicolon
          have later : Extracts false _ (t :: listTokens rest) := passed .nothing ⟨rfl, rfl⟩ {} rfl
          have whole := (extracts_declaration name line nodes).append (by rw [kind]; rfl) later
          simpa [Reading.item, PendingDeclaration.tokens, PendingDeclaration.fresh, Node.tokens] using whole
      · split
        · next blank =>
            obtain ⟨t, rfl, kind⟩ := leaf_of_kind? blank.1
            obtain rfl := List.isEmpty_iff.mp blank.2
            exact Extracts.skip (by rw [kind]; exact ih (.value name line []))
        · have later := ih (.value name line (n :: nodes))
          rwa [PendingDeclaration.tokens, listTokens_push, List.append_assoc] at later
  | skipped =>
      rw [declarationStep, PendingDeclaration.tokens, List.nil_append]
      dsimp only
      split <;> exact passed _ ⟨rfl, rfl⟩ _ rfl
  | atRule name line nodes =>
      rw [declarationStep, PendingDeclaration.tokens, List.nil_append]
      split
      · exact passed _ ⟨rfl, rfl⟩ _ rfl
      · split <;> exact passed _ ⟨rfl, rfl⟩ _ rfl

/-! Whole lists of nodes. -/

mutual
theorem extracts_rules (nested : Bool) (stop : Ending) {around : Option Bracket} {last : Bool} :
    ∀ (pending : PendingRule) (nodes : List Node), Node.AreNested around last nodes →
      Extracts true (Rule.allTexts (readRules nested stop pending nodes).items) (pending.tokens ++ listTokens nodes)
  | pending, [], _ => by
      rw [readRules_nil, listTokens, List.append_nil]
      exact extracts_ruleEnd nested stop pending
  | pending, n :: rest, h => by
      rw [readRules_cons, listTokens]
      exact extracts_ruleStep h.1 (extracts_inside n h.1) pending fun pending => extracts_rules nested stop pending rest h.2

theorem extracts_declarations (stop : Ending) {around : Option Bracket} {last : Bool} :
    ∀ (pending : PendingDeclaration) (nodes : List Node), Node.AreNested around last nodes →
      Extracts pending.fresh ((readDeclarations stop pending nodes).items.flatMap Declaration.texts)
        (pending.tokens ++ listTokens nodes)
  | pending, [], _ => by
      rw [readDeclarations_nil, listTokens, List.append_nil]
      exact extracts_declarationEnd stop pending
  | pending, n :: rest, h => by
      rw [readDeclarations_cons, listTokens]
      exact extracts_declarationStep pending fun pending => extracts_declarations stop pending rest h.2

theorem extracts_inside {around : Option Bracket} {last : Bool} : ∀ n : Node, n.IsNested around last → n.ExtractsInside
  | .leaf _, _ => trivial
  | .block _ _ contents _, h => fun stop =>
      ⟨extracts_rules true stop .nothing contents h.2.1, extracts_declarations stop .nothing contents h.2.1⟩
end

/-- The texts of a style sheet are those of runs of tokens in its source. -/
theorem excerpts_ofTokens {ts : List Token} {stop : Token} (inside : ∀ t ∈ ts, t.kind ≠ .endOfSource)
    (last : stop.kind = .endOfSource) :
    ∃ runs, Excerpts true runs (ts ++ [stop]) ∧ runs.map textOfTokens = (Stylesheet.ofTokens (ts ++ [stop])).texts := by
  have cut : (ts ++ [stop]).takeWhile (·.kind ≠ .endOfSource) = ts := by
    rw [List.takeWhile_append_of_pos fun t mem => decide_eq_true (inside t mem),
      List.takeWhile_cons_of_neg (by simp [last]), List.append_nil]
  have read := extracts_rules false ⟨false, Stylesheet.endLine (ts ++ [stop])⟩ .nothing _ (areNested_ofTokens inside)
  rw [listTokens_ofTokens] at read
  obtain ⟨runs, texts, excerpts⟩ := read
  have whole := excerpts stop [] [] (by rw [last]; rfl) .none
  rw [List.append_nil] at whole
  refine ⟨runs, whole, ?_⟩
  rw [texts, Stylesheet.ofTokens, cut, Stylesheet.texts]

end StyleAudit.Css
