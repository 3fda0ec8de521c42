import StyleAudit.Css.Reading
/-!
Reading one node at a time. What a node adds to the rules or declarations that are read, and what is waited for behind it,
depends on what was waited for before it and on nothing else that was read.
-/
namespace StyleAudit.Css

theorem ComponentValue.ofNodes_eq_map (ns : List Node) : ofNodes ns = ns.map ofNode := by
  induction ns with
  | nil => rfl
  | cons n ns ih => rw [ofNodes, ih, List.map_cons]

@[simp] theorem Reading.empty_append {α : Type} (r : Reading α) : {} ++ r = r := rfl

@[simp] theorem Reading.append_empty {α : Type} (r : Reading α) : r ++ {} = r := by
  obtain ⟨items, issues⟩ := r
  exact congr (congrArg Reading.mk (List.append_nil items)) (List.append_nil issues)

theorem Reading.mk_append {α : Type} (items more : List α) (issues later : List Issue) :
    (⟨items, issues⟩ ++ ⟨more, later⟩ : Reading α) = ⟨items ++ more, issues ++ later⟩ := rfl

theorem Reading.append_assoc {α : Type} (r s t : Reading α) : r ++ s ++ t = r ++ (s ++ t) := by
  change Reading.mk (r.items ++ s.items ++ t.items) (r.issues ++ s.issues ++ t.issues) = _
  rw [List.append_assoc, List.append_assoc]
  rfl

/-- What the end of a list of rules adds. -/
def ruleEnd (nested : Bool) (stop : Ending) : PendingRule → Reading Rule
  | .nothing => endOfRules nested stop
  | .style .. => .issue .noBlock stop.line ++ endOfRules nested stop
  | .atRule name line prelude => .item (atRuleWithoutBlock name line prelude) ++ endOfRules nested stop

/-- What a node in a list of rules adds, and what is waited for behind it. The line is that of the next token. -/
def ruleStep (nested : Bool) (stop : Ending) (next : Nat) : PendingRule → Node → Reading Rule × PendingRule
  | .nothing, n =>
    match n.kind? with
    | some .whitespace => ({}, .nothing)
    | some (.atKeyword name) => ({}, .atRule name.toLower n.line [])
    | kind =>
      if n.isCurly then (readStyleBlock stop n.line [] n, .nothing)
      else if kind = some (.closing .curly) then (.issue .strayBrace next, .nothing)
      else if (kind = some .commentOpen ∨ kind = some .commentClose) ∧ nested = false then ({}, .nothing)
      else ({}, .style n.line [n])
  | .style line nodes, n =>
    if n.isCurly then (readStyleBlock stop line nodes n, .nothing) else ({}, .style line (n :: nodes))
  | .atRule name line nodes, n =>
    if n.isCurly then (readAtBlock stop name line nodes n, .nothing)
    else if n.kind? = some .semicolon then (.item (atRuleWithoutBlock name line nodes), .nothing)
    else ({}, .atRule name line (n :: nodes))

theorem readRules_nil (nested : Bool) (stop : Ending) (pending : PendingRule) :
    readRules nested stop pending [] = ruleEnd nested stop pending := by
  cases pending <;> rfl

theorem readRules_cons (nested : Bool) (stop : Ending) (pending : PendingRule) (n : Node) (rest : List Node) :
    readRules nested stop pending (n :: rest) =
      (ruleStep nested stop (stop.next rest) pending n).1 ++
        readRules nested stop (ruleStep nested stop (stop.next rest) pending n).2 rest := by
  cases pending with
  | nothing =>
      rw [readRules, ruleStep]
      generalize n.kind? = kind, n.isCurly = curly
      rcases kind with _ | kind
      · cases curly <;> rfl
      · cases kind with
        | closing b => cases b <;> cases curly <;> rfl
        | _ => cases curly <;> cases nested <;> rfl
  | style line nodes =>
      rw [readRules]
      simp only [ruleStep]
      split <;> rfl
  | atRule name line nodes =>
      rw [readRules]
      simp only [ruleStep]
      split
      · rfl
      · split <;> rfl

/-- What the end of a list of declarations adds. -/
def declarationEnd (stop : Ending) : PendingDeclaration → Reading Declaration
  | .nothing | .skipped | .atRule .. => {}
  | .colon name _ => .issue (.noColon name) stop.line
  | .value name line nodes => .item (declaration name line nodes)

/-- What a node in a list of declarations adds, and what is waited for behind it. -/
def declarationStep (stop : Ending) : PendingDeclaration → Node → Reading Declaration × PendingDeclaration
  | .nothing, n =>
    match n.kind? with
    | some .whitespace | some .semicolon => ({}, .nothing)
    | some (.atKeyword name) => ({}, .atRule name.toLower n.line [])
    | some (.ident name) => ({}, .colon name n.line)
    | _ => (.issue (.unexpected n.first.kind) n.line, .skipped)
  | .colon name line, n =>
    match n.kind? with
    | some .whitespace => ({}, .colon name line)
    | some .colon => ({}, .value name line [])
    | some .semicolon => (.issue (.noColon name) n.line, .nothing)
    | _ => (.issue (.noColon name) n.line, .skipped)
  | .value name line nodes, n =>
    if n.kind? = some .semicolon then (.item (declaration name line nodes), .nothing)
    else if n.kind? = some .whitespace ∧ nodes.isEmpty then ({}, .value name line [])
    else ({}, .value name line (n :: nodes))
  | .skipped, n => ({}, if n.kind? = some .semicolon then .nothing else .skipped)
  | .atRule name line nodes, n =>
    if n.isCurly then ((readAtBlock stop name line nodes n).discard, .nothing)
    else if n.kind? = some .semicolon then ({}, .nothing)
    else ({}, .atRule name line (n :: nodes))

theorem readDeclarations_nil (stop : Ending) (pending : PendingDeclaration) :
    readDeclarations stop pending [] = declarationEnd stop pending := by
  cases pending <;> rfl

theorem readDeclarations_cons (stop : Ending) (pending : PendingDeclaration) (n : Node) (rest : List Node) :
    readDeclarations stop pending (n :: rest) =
      (declarationStep stop pending n).1 ++ readDeclarations stop (declarationStep stop pending n).2 rest := by
  cases pending with
  | nothing =>
      rw [readDeclarations, declarationStep]
      generalize n.kind? = kind
      rcases kind with _ | kind
      · rfl
      · cases kind <;> rfl
  | colon name line =>
      rw [readDeclarations, declarationStep]
      generalize n.kind? = kind
      rcases kind with _ | kind
      · rfl
      · cases kind <;> rfl
  | value name line nodes =>
      rw [readDeclarations]
      simp only [declarationStep]
      split
      · rfl
      · split <;> rfl
  | skipped =>
      rw [readDeclarations]
      simp only [declarationStep]
      split <;> rfl
  | atRule name line nodes =>
      rw [readDeclarations]
      simp only [declarationStep]
      split
      · rfl
      · split <;> rfl

/-! Several nodes that are waited with. -/

/-- Nodes that a prelude may hold: neither a block in curly brackets nor a semicolon ends it. -/
def InPrelude (n : Node) : Prop := n.isCurly = false ∧ n.kind? ≠ some .semicolon

/-- A style rule begins wherever nothing else does. -/
theorem readRules_begins {nested : Bool} {stop : Ending} {n : Node} {rest : List Node} (hw : n.kind? ≠ some .whitespace)
    (ha : ∀ name, n.kind? ≠ some (.atKeyword name)) (hc : n.kind? ≠ some (.closing .curly))
    (hm : ¬ ((n.kind? = some .commentOpen ∨ n.kind? = some .commentClose) ∧ nested = false)) :
    readRules nested stop .nothing (n :: rest) = readRules nested stop (.style n.line []) (n :: rest) := by
  have step : ruleStep nested stop (stop.next rest) .nothing n =
      ruleStep nested stop (stop.next rest) (.style n.line []) n := by
    rw [ruleStep, ruleStep]
    generalize n.kind? = kind at hw ha hc hm
    split
    · exact absurd rfl hw
    · exact absurd rfl (ha _)
    · rw [if_neg hc, if_neg hm]
  rw [readRules_cons, readRules_cons, step]

theorem readRules_style {nested : Bool} {stop : Ending} {line : Nat} {nodes read rest : List Node}
    (h : ∀ n ∈ nodes, n.isCurly = false) :
    readRules nested stop (.style line read) (nodes ++ rest) =
      readRules nested stop (.style line (nodes.reverse ++ read)) rest := by
  induction nodes generalizing read with
  | nil => rfl
  | cons n nodes ih =>
      rw [List.cons_append, readRules.eq_def]
      simp only [h n (by simp), Bool.false_eq_true, if_false]
      rw [ih fun m hm => h m (by simp [hm])]
      simp

theorem readRules_prelude {nested : Bool} {stop : Ending} {name : String} {line : Nat} {nodes read rest : List Node}
    (h : ∀ n ∈ nodes, InPrelude n) :
    readRules nested stop (.atRule name line read) (nodes ++ rest) =
      readRules nested stop (.atRule name line (nodes.reverse ++ read)) rest := by
  induction nodes generalizing read with
  | nil => rfl
  | cons n nodes ih =>
      obtain ⟨curly, semicolon⟩ := h n (by simp)
      rw [List.cons_append, readRules.eq_def]
      simp only [curly, Bool.false_eq_true, if_false, semicolon]
      rw [ih fun m hm => h m (by simp [hm])]
      simp

theorem readDeclarations_value {stop : Ending} {name : String} {line : Nat} {nodes read rest : List Node}
    (hs : ∀ n ∈ nodes, n.kind? ≠ some .semicolon) (hw : read ≠ [] ∨ ∀ n ∈ nodes.head?, n.kind? ≠ some .whitespace) :
    readDeclarations stop (.value name line read) (nodes ++ rest) =
      readDeclarations stop (.value name line (nodes.reverse ++ read)) rest := by
  induction nodes generalizing read with
  | nil => rfl
  | cons n nodes ih =>
      have first := hs n (by simp)
      have visible : ¬ (n.kind? = some .whitespace ∧ read.isEmpty = true) := by
        rintro ⟨white, empty⟩
        rcases hw with some | head
        · exact some (List.isEmpty_iff.mp empty)
        · exact head n rfl white
      rw [List.cons_append, readDeclarations, if_neg first, if_neg visible,
        ih (fun m hm => hs m (by simp [hm])) (.inl (by simp))]
      simp

/-- Nodes that add nothing and change nothing. -/
theorem readDeclarations_idle {stop : Ending} {pending : PendingDeclaration} {nodes rest : List Node}
    (h : ∀ n ∈ nodes, declarationStep stop pending n = ({}, pending)) :
    readDeclarations stop pending (nodes ++ rest) = readDeclarations stop pending rest := by
  induction nodes with
  | nil => rfl
  | cons n nodes ih =>
      rw [List.cons_append, readDeclarations_cons, h n List.mem_cons_self]
      exact ih fun m hm => h m (List.mem_cons_of_mem n hm)

theorem readDeclarations_prelude {stop : Ending} {name : String} {line : Nat} {nodes read rest : List Node}
    (h : ∀ n ∈ nodes, InPrelude n) :
    readDeclarations stop (.atRule name line read) (nodes ++ rest) =
      readDeclarations stop (.atRule name line (nodes.reverse ++ read)) rest := by
  induction nodes generalizing read with
  | nil => rfl
  | cons n nodes ih =>
      obtain ⟨curly, semicolon⟩ := h n List.mem_cons_self
      have step : declarationStep stop (.atRule name line read) n = ({}, .atRule name line (n :: read)) := by
        simp only [declarationStep, curly, Bool.false_eq_true, if_false, semicolon]
      rw [List.cons_append, readDeclarations_cons, step]
      rw [Reading.empty_append, ih fun m hm => h m (List.mem_cons_of_mem n hm)]
      simp

/-! Where what is waited for ends. A semicolon at the end of a declaration is left to the list. -/

theorem readDeclarations_semicolon {stop : Ending} {n : Node} {rest : List Node} (h : n.kind? = some .semicolon) :
    readDeclarations stop .nothing (n :: rest) = readDeclarations stop .nothing rest := by
  rw [readDeclarations_cons, declarationStep, h]
  rfl

theorem readDeclarations_valueEnd {stop : Ending} {name : String} {line : Nat} {nodes rest : List Node}
    (h : ∀ n ∈ rest.head?, n.kind? = some .semicolon) :
    readDeclarations stop (.value name line nodes) rest =
      .item (declaration name line nodes) ++ readDeclarations stop .nothing rest := by
  cases rest with
  | nil => rfl
  | cons n rest =>
      have semicolon := h n rfl
      rw [readDeclarations_semicolon semicolon, readDeclarations_cons, declarationStep, if_pos semicolon]

theorem readDeclarations_skippedEnd {stop : Ending} {rest : List Node}
    (h : ∀ n ∈ rest.head?, n.kind? = some .semicolon) :
    readDeclarations stop .skipped rest = readDeclarations stop .nothing rest := by
  cases rest with
  | nil => rfl
  | cons n rest =>
      have semicolon := h n rfl
      rw [readDeclarations_semicolon semicolon, readDeclarations_cons, declarationStep, if_pos semicolon]
      rfl

theorem readRules_styleBlock {nested : Bool} {stop : Ending} {line : Nat} {nodes rest : List Node} {n : Node}
    (h : n.isCurly = true) :
    readRules nested stop (.style line nodes) (n :: rest) =
      readStyleBlock stop line nodes n ++ readRules nested stop .nothing rest := by
  rw [readRules_cons, ruleStep, if_pos h]

theorem readRules_preludeBlock {nested : Bool} {stop : Ending} {name : String} {line : Nat} {nodes rest : List Node}
    {n : Node} (h : n.isCurly = true) :
    readRules nested stop (.atRule name line nodes) (n :: rest) =
      readAtBlock stop name line nodes n ++ readRules nested stop .nothing rest := by
  rw [readRules_cons, ruleStep, if_pos h]

theorem readDeclarations_preludeBlock {stop : Ending} {name : String} {line : Nat} {nodes rest : List Node} {n : Node}
    (h : n.isCurly = true) :
    readDeclarations stop (.atRule name line nodes) (n :: rest) =
      (readAtBlock stop name line nodes n).discard ++ readDeclarations stop .nothing rest := by
  rw [readDeclarations_cons, declarationStep, if_pos h]

theorem Node.isCurly_of_kind? {n : Node} {kind : TokenKind} (h : n.kind? = some kind) : n.isCurly = false := by
  cases n with
  | leaf t => rfl
  | block => cases h

theorem readRules_preludeEnd {nested : Bool} {stop : Ending} {name : String} {line : Nat} {nodes rest : List Node}
    (h : ∀ n ∈ rest.head?, n.kind? = some .semicolon) :
    readRules nested stop (.atRule name line nodes) rest =
      .item (atRuleWithoutBlock name line nodes) ++ readRules nested stop .nothing (rest.drop 1) := by
  cases rest with
  | nil => rfl
  | cons n rest =>
      have semicolon := h n rfl
      rw [readRules_cons, ruleStep, if_neg (by rw [Node.isCurly_of_kind? semicolon]; decide), if_pos semicolon]
      rfl

theorem readDeclarations_preludeEnd {stop : Ending} {name : String} {line : Nat} {nodes rest : List Node}
    (h : ∀ n ∈ rest.head?, n.kind? = some .semicolon) :
    readDeclarations stop (.atRule name line nodes) rest = readDeclarations stop .nothing (rest.drop 1) := by
  cases rest with
  | nil => rfl
  | cons n rest =>
      have semicolon := h n rfl
      rw [readDeclarations_cons, declarationStep, if_neg (by rw [Node.isCurly_of_kind? semicolon]; decide),
        if_pos semicolon]
      rfl

theorem readDeclarations_noColon {stop : Ending} {name : String} {line : Nat} {ns : List Node}
    (h : ∀ n ∈ ns.head?, n.kind? ≠ some .whitespace ∧ n.kind? ≠ some .colon) :
    readDeclarations stop (.colon name line) ns =
      .issue (.noColon name) (stop.next ns) ++ readDeclarations stop .skipped ns := by
  cases ns with
  | nil => rfl
  | cons n rest =>
      obtain ⟨white, colon⟩ := h n rfl
      rw [readDeclarations_cons, readDeclarations_cons, declarationStep, declarationStep]
      generalize n.kind? = kind at white colon
      rcases kind with _ | kind
      · rfl
      · cases kind <;> first | rfl | exact absurd rfl white | exact absurd rfl colon

/-! Selectors token by token. -/

theorem splitSelectors_ne_nil (depth : Nat) (ts : List Token) : splitSelectors depth ts ≠ [] := by
  cases ts with
  | nil => exact List.cons_ne_nil _ _
  | cons t ts =>
      rw [splitSelectors]
      split
      · exact List.cons_ne_nil _ _
      · dsimp only
        split <;> exact List.cons_ne_nil _ _

/-- A token that ends no selector is the first one of the selector that goes on behind it. -/
theorem splitSelectors_cons {depth : Nat} {t : Token} {ts : List Token} (h : ¬ (t.kind = .comma ∧ depth = 0)) :
    splitSelectors depth (t :: ts) = (splitSelectors
      (if t.kind.opensBlock then depth + 1 else if t.kind.closesBlock then depth - 1 else depth) ts).modifyHead
        (t :: ·) := by
  rw [splitSelectors, if_neg h]
  dsimp only
  split
  · next none => exact absurd none (splitSelectors_ne_nil _ ts)
  · next selector more same => rw [same, List.modifyHead_cons]

end StyleAudit.Css
