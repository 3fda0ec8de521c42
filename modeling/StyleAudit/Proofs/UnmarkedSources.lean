import StyleAudit.Proofs.ExchangedClauses
import StyleAudit.Proofs.ImportantMarks
import StyleAudit.Proofs.MovedTokens
/-!
Sources with the mark of one declaration left out. Each declaration of a style sheet stands at one place of its outline; with
other tokens there, the style sheet is the same but for that declaration.
-/
namespace StyleAudit.Css

open Node (listTokens listTokens_append)
open Text (trimEnd)

/-! The declarations of a style sheet. -/

mutual
/-- The declarations of a rule and of the rules in it, in the order of the source. -/
def Rule.declarations : Rule → List Declaration
  | .style r => r.declarations
  | .group _ _ _ rules => Rule.listDeclarations rules
  | .keyframes _ _ _ frames => frames.flatMap StyleRule.declarations
  | .descriptors _ _ _ ds => ds
  | .charset .. | .imported .. | .statement .. => []

def Rule.listDeclarations : List Rule → List Declaration
  | [] => []
  | r :: rest => r.declarations ++ Rule.listDeclarations rest
end

def Stylesheet.declarations (s : Stylesheet) : List Declaration := Rule.listDeclarations s.rules

theorem Rule.listDeclarations_append (rs ss : List Rule) :
    listDeclarations (rs ++ ss) = listDeclarations rs ++ listDeclarations ss := by
  induction rs with
  | nil => rfl
  | cons r rs ih => rw [List.cons_append, listDeclarations, listDeclarations, ih, List.append_assoc]

namespace Clause

/-- The declarations that a rule in an outline gives, in a list that is read for rules. -/
def declarations (c : Clause) : List Declaration := Rule.listDeclarations c.rule?.toList

/-- The declarations that a rule in an outline gives as a part of an animation. -/
def frameDeclarations (c : Clause) : List Declaration :=
  (c.rule?.toList.filterMap Rule.style?).flatMap StyleRule.declarations

theorem listDeclarations_listRules (cs : List Clause) :
    Rule.listDeclarations (listRules cs) = cs.flatMap declarations := by
  induction cs with
  | nil => rfl
  | cons c cs ih => rw [listRules, Rule.listDeclarations_append, ih, List.flatMap_cons, declarations]

theorem frameDeclarations_listRules (cs : List Clause) :
    ((listRules cs).filterMap Rule.style?).flatMap StyleRule.declarations = cs.flatMap frameDeclarations := by
  induction cs with
  | nil => rfl
  | cons c cs ih => rw [listRules, List.filterMap_append, List.flatMap_append, ih, List.flatMap_cons, frameDeclarations]

/-! Where a declaration stands. -/

/-- Every declaration that outlines give stands at one place of them, and what stands there in its place is given in its
place. -/
def Locates (given : Clause → List Declaration) (cs : List Clause) : Prop :=
  ∀ ahead d later, cs.flatMap given = ahead ++ d :: later →
    ∃ (f : Frame) (c : Clause), cs = f.fill c ∧ c.declaration? = some d ∧
      ∀ c' d', c'.declaration? = some d' → (f.fill c').flatMap given = ahead ++ d' :: later

theorem locates_nil (given : Clause → List Declaration) : Locates given [] :=
  fun _ _ _ none => absurd none.symm (by simp)

theorem locates_cons {given : Clause → List Declaration} {c : Clause} {cs : List Clause} (first : Locates given [c])
    (others : Locates given cs) : Locates given (c :: cs) := by
  intro ahead d later whole
  rw [List.flatMap_cons, List.append_eq_append_iff] at whole
  -- the declaration is given behind the first, or else by the first
  have behind (before : List Declaration) (split : ahead = given c ++ before) (rest : cs.flatMap given = before ++ d :: later) :
      ∃ (f : Frame) (c₀ : Clause), c :: cs = f.fill c₀ ∧ c₀.declaration? = some d ∧
        ∀ c' d', c'.declaration? = some d' → (f.fill c').flatMap given = ahead ++ d' :: later := by
    obtain ⟨f, c₀, rfl, known, other⟩ := others _ _ _ rest
    refine ⟨f.within [c] [], c₀, by simp [Frame.fill_within], known, fun c' d' h => ?_⟩
    rw [Frame.fill_within, List.append_nil, List.singleton_append, List.flatMap_cons, other c' d' h, split, List.append_assoc]
  rcases whole with ⟨before, split, rest⟩ | ⟨part, split, rest⟩
  · exact behind before split rest
  · cases part with
    | nil =>
        rw [List.append_nil] at split
        exact behind [] (by rw [split, List.append_nil]) rest.symm
    | cons e part =>
        obtain ⟨rfl, rfl⟩ := List.cons.inj rest
        have here : [c].flatMap given = ahead ++ d :: part := by rw [List.flatMap_singleton, split]
        obtain ⟨f, c₀, same, known, other⟩ := first _ _ _ here
        refine ⟨f.within [] cs, c₀, by rw [Frame.fill_within, ← same]; rfl, known, fun c' d' h => ?_⟩
        rw [Frame.fill_within, List.nil_append, List.flatMap_append, other c' d' h, List.append_assoc]
        rfl

theorem locates_of_members {given : Clause → List Declaration} (cs : List Clause) (each : ∀ c, Locates given [c]) :
    Locates given cs := by
  induction cs with
  | nil => exact locates_nil given
  | cons c cs ih => exact locates_cons (each c) ih

theorem locates_inside {given inner : Clause → List Declaration} {s : Shell} {body : List Clause} (h : Locates inner body)
    (same : ∀ body, given (s.clause body) = body.flatMap inner) : Locates given [s.clause body] := by
  intro ahead d later whole
  rw [List.flatMap_singleton, same] at whole
  obtain ⟨f, c, rfl, known, other⟩ := h ahead d later whole
  refine ⟨.inside [] s f [], c, rfl, known, fun c' d' h => ?_⟩
  rw [Frame.fill, List.nil_append, List.flatMap_singleton, same, other c' d' h]

theorem locates_nothing {given : Clause → List Declaration} {c : Clause} (none : given c = []) : Locates given [c] := by
  intro ahead d later whole
  rw [List.flatMap_singleton, none] at whole
  exact absurd whole.symm (by simp)

theorem locates_declarations (cs : List Clause) : Locates (fun c => c.declaration?.toList) cs := by
  refine locates_of_members cs fun c ahead d later whole => ?_
  rw [List.flatMap_singleton] at whole
  cases known : c.declaration? with
  | none => rw [known] at whole; exact absurd whole.symm (by simp)
  | some e =>
      rw [known, Option.toList_some, List.singleton_eq_append_iff] at whole
      rcases whole with ⟨rfl, same⟩ | ⟨-, same⟩
      · obtain ⟨rfl, rfl⟩ := List.cons.inj same
        refine ⟨.here [] [], c, rfl, known, fun c' d' h => ?_⟩
        rw [Frame.fill, List.nil_append, List.flatMap_singleton, h]
        rfl
      · cases same

theorem filterMap_declaration? (body : List Clause) :
    body.filterMap declaration? = body.flatMap fun c => c.declaration?.toList := List.filterMap_eq_flatMap_toList _ _

theorem locates_style {given : Clause → List Declaration} {head : List Node} {opener : Token} {body : List Clause}
    {closer : Option Token} (same : ∀ body, given (.style head opener body closer) = body.filterMap declaration?) :
    Locates given [.style head opener body closer] := by
  have inside (body : List Clause) : given ((Shell.style head opener closer).clause body) =
      body.flatMap fun c => c.declaration?.toList := (same body).trans (filterMap_declaration? body)
  exact locates_inside (locates_declarations body) inside

theorem locates_frames (cs : List Clause) : Locates frameDeclarations cs := by
  refine locates_of_members cs fun c => ?_
  cases c with
  | style head opener body closer =>
      exact locates_style fun body => by simp [frameDeclarations, rule?, Rule.style?]
  | block keyword word prelude opener body closer =>
      refine locates_nothing ?_
      simp only [frameDeclarations, rule?]
      split <;> rfl
  | statement keyword word prelude semicolon =>
      refine locates_nothing ?_
      rw [frameDeclarations, rule?]
      rcases atRuleWithoutBlock_form word.toLower keyword.line prelude.reverse with
        ⟨_, same⟩ | ⟨_, _, same⟩ | same <;> rw [same] <;> rfl
  | _ => exact locates_nothing rfl

mutual
theorem locates_rule : ∀ c : Clause, Locates declarations [c]
  | .style head opener body closer =>
      locates_style fun body => by simp [declarations, rule?, Rule.listDeclarations, Rule.declarations]
  | .block keyword word prelude opener body closer => by
      have given (body : List Clause) : declarations ((Shell.block keyword word prelude opener closer).clause body) =
          match BlockKind.ofName word.toLower with
          | .rules => body.flatMap declarations
          | .keyframes => body.flatMap frameDeclarations
          | .declarations => body.flatMap fun c => c.declaration?.toList := by
        rw [← listDeclarations_listRules, ← frameDeclarations_listRules, ← filterMap_declaration?, declarations, Shell.clause,
          rule?]
        simp only [Option.toList_some, Rule.listDeclarations, List.append_nil]
        cases BlockKind.ofName word.toLower <;> rfl
      have inside {inner : Clause → List Declaration} (h : Locates inner body)
          (same : ∀ body, declarations ((Shell.block keyword word prelude opener closer).clause body) = body.flatMap inner) :
          Locates declarations [.block keyword word prelude opener body closer] := locates_inside h same
      cases kind : BlockKind.ofName word.toLower with
      | rules => exact inside (locates_rules body) fun body => by rw [given, kind]
      | keyframes => exact inside (locates_frames body) fun body => by rw [given, kind]
      | declarations => exact inside (locates_declarations body) fun body => by rw [given, kind]
  | .statement keyword word prelude semicolon => by
      refine locates_nothing ?_
      rw [declarations, rule?]
      rcases atRuleWithoutBlock_form word.toLower keyword.line prelude.reverse with
        ⟨_, same⟩ | ⟨_, _, same⟩ | same <;> rw [same] <;> rfl
  | .idle _ => locates_nothing rfl
  | .stray _ => locates_nothing rfl
  | .bare .. => locates_nothing rfl
  | .declaration .. => locates_nothing rfl
  | .noColon .. => locates_nothing rfl
  | .unexpected .. => locates_nothing rfl

/-- Each declaration of a style sheet has its place. -/
theorem locates_rules : ∀ cs : List Clause, Locates declarations cs
  | [] => locates_nil declarations
  | c :: cs => locates_cons (locates_rule c) (locates_rules cs)
end

end Clause

/-! What stands in a gap. -/

theorem Clause.fits_behind {level : Level} {cs : List Clause} (before : List Clause) (h : AllFit level (before ++ cs)) :
    AllFit level cs := by
  induction before with
  | nil => exact h
  | cons c before ih => exact ih h.2

/-- A declaration in an outline stands in a block in curly brackets. -/
theorem Frame.placed {c : Clause} {d : Declaration} (known : c.declaration? = some d) (f : Frame) {level : Level}
    {around : Option Bracket} {last : Bool} (fits : Clause.AllFit level (f.fill c))
    (nested : Node.AreNested around last (Clause.listNodes (f.fill c))) (block : level = .declarations → around = some .curly) :
    ∃ behind last, c.Fits .declarations behind ∧ Node.AreNested (some .curly) last (c.nodes ++ behind) := by
  induction f generalizing level around last with
  | here before behind =>
      have fit := (Clause.fits_behind before fits).1
      rw [fill, Clause.listNodes_append, Clause.listNodes, Node.areNested_append] at nested
      have inside : level = .declarations := by
        cases c with
        | declaration => exact fit.1
        | _ => cases known
      subst inside
      rw [block rfl] at nested
      exact ⟨_, _, fit, nested.2⟩
  | inside before shell inner behind ih =>
      have fit := (Clause.fits_behind before fits).1
      rw [fill, Clause.listNodes_append, Clause.listNodes, Node.areNested_append, shell.nodes_clause, List.append_assoc,
        Node.areNested_append] at nested
      exact ih (Shell.fits_body fit) nested.2.2.1.2.1 fun _ => rfl

/-! A declaration with a mark. -/

/-- How a declaration with a mark is written, up to what stands behind its value. -/
structure MarkedText where
  property : Token
  /-- The colon, with the white space on both sides of it. -/
  head : List Token
  /-- The nodes in front of the mark. -/
  value : List Node
  mark : Mark
  tail : List Token

namespace MarkedText

/-- The tokens of the declaration with others in the place of its mark. -/
def tokens (w : MarkedText) (ts : List Token) : List Token := w.property :: (w.head ++ (listTokens w.value ++ ts))

/-- The tokens of the mark, and the white space behind it. -/
def ending (w : MarkedText) : List Token := w.mark.tokens ++ w.tail

/-- What is written is a declaration: its name, a colon, and a value that ends in the mark. -/
structure Writes (w : MarkedText) (d : Declaration) : Prop where
  property : w.property.kind = .ident d.name
  line : w.property.line = d.line
  head : ∃ space colon blank, w.head = space ++ colon :: blank ∧ AreBlank space ∧ colon.kind = .colon ∧ AreBlank blank
  mark : w.mark.IsWritten
  tail : AreBlank w.tail
  nested : Node.AreNested (some .curly) false w.value
  within : ∀ n ∈ w.value, n.kind? ≠ some .semicolon
  ends : EndsVisibly w.value
  important : d.important = true
  value : d.value = ComponentValue.ofNodes w.value
  text : d.text.toList = trimEnd (compactText (listTokens w.value))

end MarkedText

/-- A token that opens nothing and ends nothing may stand anywhere. -/
theorem isNested_leaf {t : Token} {kind : TokenKind} (same : t.kind = kind) (opens : kind.opens? = none)
    (goesOn : kind ≠ .endOfSource) (closes : ∀ b, kind ≠ .closing b) (around : Option Bracket) (last : Bool) :
    (Node.leaf t).IsNested around last := by
  rw [Node.IsNested, same]
  exact ⟨opens, goesOn, fun b _ => closes b⟩

theorem AreBlank.areNested {ts : List Token} (h : AreBlank ts) (around : Option Bracket) (last : Bool) :
    Node.AreNested around last (ts.map Node.leaf) := by
  induction ts with
  | nil => trivial
  | cons t ts ih =>
      obtain ⟨kind, blank⟩ := List.forall_mem_cons.mp h
      exact ⟨isNested_leaf kind rfl (by simp) (by simp) around _, ih blank⟩

/-- Nodes in front of others are closed. -/
theorem areNested_closed {around : Option Bracket} {last : Bool} {front ending rest : List Node} (some : ending ≠ []) :
    Node.AreNested around last (front ++ (ending ++ rest)) ↔
      Node.AreNested around false front ∧ Node.AreNested around last (ending ++ rest) := by
  have more : (ending ++ rest).isEmpty = false := by
    rw [Bool.eq_false_iff, Ne, List.isEmpty_iff]
    exact List.append_ne_nil_of_left_ne_nil some rest
  rw [Node.areNested_append, more, Bool.and_false]

/-- White space may stand behind closed nodes in the place of others. -/
theorem areNested_ending {around : Option Bracket} {last : Bool} {front ending rest : List Node} {left : List Token}
    (h : Node.AreNested around last (front ++ (ending ++ rest))) (some : ending ≠ []) (blank : AreBlank left) :
    Node.AreNested around last (front ++ (left.map Node.leaf ++ rest)) := by
  obtain ⟨closed, behind⟩ := (areNested_closed some).mp h
  rw [Node.areNested_append, Node.areNested_append]
  exact ⟨closed.anywhere, blank.areNested _ _, (Node.areNested_append.mp behind).2⟩

theorem declaration_of (name : String) (line : Nat) (nodes : List Node) :
    (declaration name line nodes).name = name ∧ (declaration name line nodes).line = line ∧
      (declaration name line nodes).important = (beforeImportant (ComponentValue.ofNodes nodes)).isSome := by
  rw [declaration]
  cases beforeImportant (ComponentValue.ofNodes nodes) <;> exact ⟨rfl, rfl, rfl⟩

/-- In the place of what a value ends in, white space may stand: what is kept is then what is kept of the rest. -/
theorem Clause.exists_ending (property : Token) (name : String) (space : List Node) (colon : Token) (blank front : List Node)
    {ending : List Node} {left : List Token} (some : ending ≠ []) (white : AreBlank left) :
    ∃ c' : Clause, c'.nodes = .leaf property :: (space ++ .leaf colon :: (blank ++ (front ++ left.map Node.leaf))) ∧
      c'.declaration? = .some (Css.declaration name property.line front.reverse) ∧
      ∀ rest, Exchange (.declaration property name space colon blank (front ++ ending) :: rest) (c' :: rest) := by
  have nested {c' : Clause} (nodes : c'.nodes = .leaf property :: (space ++ .leaf colon :: (blank ++ (front ++ left.map Node.leaf))))
      (around : Option Bracket) (last : Bool) (behind : List Node)
      (h : Node.AreNested around last ((declaration property name space colon blank (front ++ ending)).nodes ++ behind)) :
      Node.AreNested around last (c'.nodes ++ behind) := by
    have inner : Node.AreNested around last
        (.leaf property :: (space ++ .leaf colon :: (blank ++ front)) ++ (left.map Node.leaf ++ behind)) :=
      areNested_ending (by simpa [Clause.nodes] using h) some white
    rw [nodes]
    simpa using inner
  cases front with
  | nil =>
      refine ⟨.declaration property name space colon (blank ++ left.map Node.leaf) [], by simp [nodes], rfl,
        Exchange.first rfl ?_ (nested (by simp [nodes])) fun _ _ => rfl⟩
      rintro level behind ⟨level, kind, before, colonKind, gap, -, ends⟩
      exact ⟨level, kind, before, colonKind, List.forall_mem_append.mpr ⟨gap, white.leaves⟩, by simp, List.forall_mem_nil _, ends.2⟩
  | cons n front =>
      refine ⟨.declaration property name space colon blank (n :: front ++ left.map Node.leaf), rfl,
        congrArg Option.some (declaration_blank name property.line white), Exchange.first rfl ?_ (nested rfl) fun _ _ => rfl⟩
      rintro level behind ⟨level, kind, before, colonKind, gap, visible, ends⟩
      refine ⟨level, kind, before, colonKind, gap, visible, ?_, ends.2⟩
      intro m hm
      rcases List.mem_append.mp hm with here | later
      · exact ends.1 m (List.mem_append_left _ here)
      · simp [white.leaves m later]

/-- A declaration with a mark, and what may be exchanged for it: the same declaration, with white space in the place of the
mark. -/
theorem Clause.exists_marked {c : Clause} {d : Declaration} {behind : List Node} {last : Bool}
    (known : c.declaration? = some d) (important : d.important = true) (fits : c.Fits .declarations behind)
    (nested : Node.AreNested (some .curly) last (c.nodes ++ behind))
    (read : ∀ t ∈ listTokens c.nodes, ∃ rest, t.piece.IsRead rest) :
    ∃ w : MarkedText, w.Writes d ∧ listTokens c.nodes = w.tokens w.ending ∧
      ∀ left, AreBlank left → ∃ c' : Clause, listTokens c'.nodes = w.tokens left ∧
        c'.declaration? = some (Css.declaration d.name d.line w.value.reverse) ∧
        ∀ rest, Exchange (c :: rest) (c' :: rest) := by
  cases c with
  | declaration property name space colon blank value =>
      obtain ⟨-, kind, white, colonKind, gap, visible, ends⟩ := fits
      obtain rfl := Option.some.inj known
      obtain ⟨-, -, marked⟩ := declaration_of name property.line value.reverse
      rw [marked, Option.isSome_iff_exists] at important
      obtain ⟨values, found⟩ := important
      obtain ⟨front, m, tail, rfl, written, after, shows⟩ := exists_mark found
      obtain ⟨space, rfl, before⟩ := leaves_of_blank white
      obtain ⟨blank, rfl, between⟩ := leaves_of_blank gap
      have spelled : m.IsSpelled := written.spelled fun t ht => read t (by
        simp [nodes, Node.listTokens, listTokens_append, listTokens_leaves, ht])
      rw [declaration_marked name property.line written spelled after shows]
      have some : (m.tokens ++ tail).map Node.leaf ≠ [] := by simp [Mark.tokens]
      refine ⟨⟨property, space ++ colon :: blank, front, m, tail⟩, ?_, ?_, fun left empty => ?_⟩
      · have closed : Node.AreNested (.some .curly) last (.leaf property :: (space.map Node.leaf ++ .leaf colon ::
            (blank.map Node.leaf ++ front)) ++ ((m.tokens ++ tail).map Node.leaf ++ behind)) := by
          simpa [nodes] using nested
        rw [areNested_closed some, List.append_cons, ← List.append_assoc, ← List.cons_append] at closed
        exact ⟨kind, rfl, ⟨space, colon, blank, rfl, before, colonKind, between⟩, written, after,
          (Node.areNested_append.mp closed.1).2,
          fun n hn => ends.1 n (List.mem_append_left _ hn), shows, rfl, rfl, String.toList_ofList⟩
      · simp [nodes, MarkedText.tokens, MarkedText.ending, Node.listTokens, Node.tokens, listTokens_append, listTokens_leaves]
      · obtain ⟨c', nodes, kept, exchange⟩ := exists_ending property name (space.map Node.leaf) colon
          (blank.map Node.leaf) front some empty
        refine ⟨c', ?_, kept, exchange⟩
        simp [nodes, MarkedText.tokens, Node.listTokens, Node.tokens, listTokens_append, listTokens_leaves]
  | _ => cases known

/-- A declaration that ends in a mark. -/
def Clause.IsMarked (c : Clause) : Prop :=
  ∃ (property : Token) (name : String) (space : List Node) (colon : Token) (blank front : List Node) (m : Mark) (tail : List Token),
    c = .declaration property name space colon blank (front ++ (m.tokens ++ tail).map Node.leaf) ∧ m.IsWritten ∧ AreBlank tail

/-- A declaration is important if it ends in a mark, and only then. -/
theorem Clause.isMarked_iff {c : Clause} {d : Declaration} (known : c.declaration? = some d) :
    c.IsMarked ↔ d.important = true := by
  cases c with
  | declaration property name space colon blank value =>
      obtain rfl := Option.some.inj known
      rw [(declaration_of name property.line value.reverse).2.2, Option.isSome_iff_exists]
      constructor
      · rintro ⟨_, _, _, _, _, front, m, tail, ⟨⟩, written, after⟩
        exact ⟨_, beforeImportant_marked written after⟩
      · rintro ⟨values, found⟩
        obtain ⟨front, m, tail, rfl, written, after, -⟩ := exists_mark found
        exact ⟨property, name, space, colon, blank, front, m, tail, rfl, written, after⟩
  | _ => cases known

/-! Whole style sheets. -/

/-- Each declaration of a style sheet stands in its outline. -/
theorem exists_declared {css : String} {ahead later : List Declaration} {d : Declaration}
    (kept : (Stylesheet.ofText css).declarations = ahead ++ d :: later) :
    ∃ (f : Frame) (c : Clause), IsOutline css (f.fill c) ∧ c.declaration? = some d ∧
      ∀ c' d', c'.declaration? = some d' → (f.fill c').flatMap Clause.declarations = ahead ++ d' :: later := by
  obtain ⟨cs, outline⟩ := exists_outline css
  rw [Stylesheet.declarations, outline.ofText, Clause.listDeclarations_listRules] at kept
  obtain ⟨f, c, rfl, known, other⟩ := Clause.locates_rules cs _ _ _ kept
  exact ⟨f, c, outline, known, other⟩

/-- An important declaration is written as one with a mark. With white space in the place of the mark, the style sheet is the
same but for that declaration, which is then the one with the rest of the value. -/
theorem exists_unmarked {css : String} {f : Frame} {c : Clause} {ahead later : List Declaration} {d : Declaration}
    (outline : IsOutline css (f.fill c)) (known : c.declaration? = some d)
    (other : ∀ c' d', c'.declaration? = some d' → (f.fill c').flatMap Clause.declarations = ahead ++ d' :: later)
    (important : d.important = true) :
    ∃ (w : MarkedText) (front behind : List Token), w.Writes d ∧ listTokens c.nodes = w.tokens w.ending ∧
      tokenize css = front ++ (w.tokens w.ending ++ behind) ∧
      ∀ left, AreBlank left →
        (Stylesheet.ofTokens (front ++ (w.tokens left ++ behind))).declarations =
          ahead ++ declaration d.name d.line w.value.reverse :: later ∧
        (Stylesheet.ofTokens (front ++ (w.tokens left ++ behind))).issues = (Stylesheet.ofText css).issues := by
  have nested : Node.AreNested none true (Clause.listNodes (f.fill c)) := outline.nodes ▸ areNested_sourceNodes css
  obtain ⟨rest, last, fits, inside⟩ := f.placed known outline.fits nested (by simp)
  obtain ⟨front, behind, around⟩ := f.tokens
  let stop : Place := Place.after {} (normalize css.toList)
  have tokens : tokenize css = front ++ (listTokens c.nodes ++ (behind ++ [⟨.endOfSource, stop, []⟩])) := by
    rw [tokenize_eq, ← outline.nodes, around, List.append_assoc, List.append_assoc]
  have read (t : Token) (ht : t ∈ listTokens c.nodes) : ∃ rest, t.piece.IsRead rest := by
    have member : t ∈ tokenize css := by
      rw [tokens]
      exact List.mem_append_right _ (List.mem_append_left _ ht)
    refine exists_isRead member (nested.ne_end _ t ?_)
    rw [around]
    exact List.mem_append_right _ (List.mem_append_left _ ht)
  obtain ⟨w, writes, written, unmarked⟩ := Clause.exists_marked known important fits inside read
  refine ⟨w, front, behind ++ [⟨.endOfSource, stop, []⟩], writes, written, by rw [tokens, written], fun left blank => ?_⟩
  obtain ⟨c', left', known', exchange⟩ := unmarked left blank
  have exchanged := f.exchange exchange
  have sheet := ofTokens_outline (exchanged.fits _ outline.fits) (exchanged.nested _ _ nested) stop
  have same : listTokens (Clause.listNodes (f.fill c')) ++ [⟨.endOfSource, stop, []⟩] =
      front ++ (w.tokens left ++ (behind ++ [⟨.endOfSource, stop, []⟩])) := by
    rw [around, left', List.append_assoc, List.append_assoc]
  rw [same] at sheet
  rw [sheet, Stylesheet.declarations, Clause.listDeclarations_listRules, other c' _ known', outline.ofText]
  refine ⟨rfl, ?_⟩
  rw [exchanged.issues, sourceEnd, tokenize_eq, endLine_nested (areNested_sourceNodes css)]

end StyleAudit.Css
