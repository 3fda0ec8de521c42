import StyleAudit.Proofs.SpelledNodes
/-!
Outlines of compact texts. For each rule of a style sheet there is something in an outline that is spelled like the compact form
of the rule, and that stands for the same rule but for what the compact form does not show: lines, and white space in values.
-/
namespace StyleAudit.Css

open Clause (AllFit listNodes listRules listIssues)
open Node (listTokens)
open Selector (StopsAt)

/-! What is shown of a rule. -/

def StyleRule.shown (r : StyleRule) : StyleRule := ⟨0, r.selectors, r.declarations.map Declaration.shown⟩

namespace Rule

mutual
/-- A rule without its lines, and without the values of its declarations, whose texts stay. -/
def shown : Rule → Rule
  | .style r => .style r.shown
  | .group _ name prelude rules => .group 0 name prelude (listShown rules)
  | .keyframes _ keyword name frames => .keyframes 0 keyword name (frames.map StyleRule.shown)
  | .charset _ encoding => .charset 0 encoding
  | .imported _ url media => .imported 0 url media
  | .descriptors _ name prelude ds => .descriptors 0 name prelude (ds.map Declaration.shown)
  | .statement _ name prelude => .statement 0 name prelude

def listShown : List Rule → List Rule
  | [] => []
  | r :: rest => r.shown :: listShown rest
end

end Rule

theorem compactDeclarations_shown (ds : List Declaration) :
    compactDeclarations (ds.map Declaration.shown) = compactDeclarations ds := by
  rw [compactDeclarations, List.map_map]
  rfl

theorem StyleRule.compact_shown (r : StyleRule) : r.shown.compact = r.compact := by
  rw [compact, compact, shown, compactDeclarations_shown]

namespace Rule

mutual
theorem compact_shown : ∀ r : Rule, r.shown.compact = r.compact
  | .style r => by rw [shown, compact, compact, StyleRule.compact_shown]
  | .group line name prelude rules => by rw [shown, compact, compact, compactList_shown rules]
  | .keyframes line keyword name frames => by
      have texts : (frames.map StyleRule.shown).map StyleRule.compact = frames.map StyleRule.compact := by
        rw [List.map_map]
        exact List.map_congr_left fun frame _ => StyleRule.compact_shown frame
      rw [shown, compact, compact, texts]
  | .charset .. => rfl
  | .imported .. => rfl
  | .descriptors line name prelude ds => by rw [shown, compact, compact, compactDeclarations_shown]
  | .statement .. => rfl

/-- What is shown of rules is all of their compact form. -/
theorem compactList_shown : ∀ rules : List Rule, compactList (listShown rules) = compactList rules
  | [] => rfl
  | r :: rest => by rw [listShown, compactList, compactList, compact_shown r, compactList_shown rest]
end

mutual
theorem shown_moved (g : Nat → Nat) : ∀ r : Rule, (r.moved g).shown = r.shown
  | .style r => by
      rw [moved, shown, shown, StyleRule.shown, StyleRule.shown, StyleRule.moved, List.map_map]
      rfl
  | .group line name prelude rules => by rw [moved, shown, shown, listShown_moved g rules]
  | .keyframes line keyword name frames => by
      have texts : (frames.map (StyleRule.moved g)).map StyleRule.shown = frames.map StyleRule.shown := by
        rw [List.map_map]
        refine List.map_congr_left fun frame _ => ?_
        rw [Function.comp_apply, StyleRule.shown, StyleRule.shown, StyleRule.moved, List.map_map]
        rfl
      rw [moved, shown, shown, texts]
  | .charset .. => rfl
  | .imported .. => rfl
  | .descriptors line name prelude ds => by
      rw [moved, shown, shown, List.map_map]
      rfl
  | .statement .. => rfl

theorem listShown_moved (g : Nat → Nat) : ∀ rules : List Rule, listShown (listMoved g rules) = listShown rules
  | [] => rfl
  | r :: rest => by rw [listMoved, listShown, listShown, shown_moved g r, listShown_moved g rest]
end

theorem listShown_eq_map (rules : List Rule) : listShown rules = rules.map shown := by
  induction rules with
  | nil => rfl
  | cons r rest ih => rw [listShown, ih, List.map_cons]

theorem style?_shown (r : Rule) : r.shown.style? = r.style?.map StyleRule.shown := by
  cases r <;> rfl

end Rule

/-! Lists of declarations. -/

/-- The selectors, the prelude or the value that something is written with. -/
def Clause.parts : Clause → List Node
  | .style head _ _ _ => head
  | .block _ _ prelude _ _ _ | .statement _ _ prelude _ => prelude
  | .declaration _ _ _ _ _ value => value
  | _ => []

/-- A list of declarations that is spelled like the compact form of others, and shows the same. -/
structure RestatesDeclarations (cs : List Clause) (ds : List Declaration) : Prop where
  fits : AllFit .declarations cs
  spells : Spells (some .curly) (listNodes cs) (compactDeclarations ds).toList StartsMark
  shown : (cs.filterMap Clause.declaration?).map Declaration.shown = ds.map Declaration.shown

theorem Declaration.toList_compact (d : Declaration) :
    d.compact.toList = d.name.toList ++ ([':'] ++ (d.text ++ if d.important then "!important" else "").toList) := by
  rw [compact, String.append_assoc, String.append_assoc, String.toList_append, String.toList_append]
  rfl

theorem exists_restatedDeclaration {c : Clause} {d : Declaration} {behind : List Node} (fits : c.Fits .declarations behind)
    (nested : Node.AreNested (some .curly) false c.nodes) (kept : IsKept c.parts) (known : c.declaration? = some d)
    (hn : IsName d.name.toList) :
    ∃ (c' : Clause) (d' : Declaration), c'.declaration? = some d' ∧ d'.shown = d.shown ∧
      Spells (some .curly) c'.nodes d.compact.toList StartsMark ∧
      ∀ rest : List Node, (∀ n ∈ rest.head?, n.kind? = some .semicolon) → c'.Fits .declarations rest := by
  cases c with
  | declaration property name space colon blank value =>
      obtain ⟨-, -, -, -, -, -, within, -⟩ := fits
      obtain rfl := Option.some.inj known
      obtain ⟨name', -, -⟩ := declaration_of name property.line value.reverse
      have closed : Node.AreNested (some .curly) false value :=
        (Node.areNested_append.mp (Node.areNested_append.mp nested.2).2.2).2
      obtain ⟨ns, value'⟩ : ∃ ns, Restated (some .curly) (declaration name property.line value.reverse) ns :=
        exists_restated kept closed within name property.line
      have spells := value'.spells
      rw [name'] at hn
      refine ⟨.declaration ⟨.ident name, {}, name.toList⟩ name [] ⟨.colon, {}, [':']⟩ [] ns, _, rfl, ?_, ?_, fun rest ends => ?_⟩
      · have shown := value'.shown 1
        rwa [name'] at shown
      · have piece : Piece.word name.toList = ⟨.ident name, name.toList⟩ := by rw [Piece.word, String.ofList_toList]
        have word : Spells (some .curly) [Piece.leaf ⟨.ident name, name.toList⟩] name.toList (StopsAt extendsWord) :=
          .leaf rfl (fun c hc => isInline_of_isNameChar (hn.letters c hc)) fun rest hr =>
            piece ▸ ReadBefore.plainName hn hr
        have sign : Spells (some .curly) [.leaf ⟨.colon, {}, [':']⟩] [':'] Anywhere := .mark rfl rfl
        have whole := word.append (sign.append spells fun _ _ => trivial) fun rest _ => StopsAt.cons (by decide)
        rw [Declaration.toList_compact, name']
        exact whole
      · exact ⟨rfl, rfl, List.forall_mem_nil _, rfl, List.forall_mem_nil _, value'.first, value'.within, ends⟩
  | _ => cases known

theorem exists_restatedDeclarations (cs : List Clause) (fits : AllFit .declarations cs)
    (nested : Node.AreNested (some .curly) false (listNodes cs)) (kept : ∀ c ∈ cs, IsKept c.parts)
    (names : ∀ d ∈ cs.filterMap Clause.declaration?, IsName d.name.toList) :
    ∃ cs', RestatesDeclarations cs' (cs.filterMap Clause.declaration?) := by
  induction cs with
  | nil => exact ⟨[], trivial, .nil, rfl⟩
  | cons c cs ih =>
      rw [listNodes] at nested
      obtain ⟨first, later⟩ := Node.areNested_append.mp nested
      cases known : c.declaration? with
      | none =>
          rw [List.filterMap_cons_none known] at names ⊢
          exact ih fits.2 later (fun d hd => kept d (List.mem_cons_of_mem c hd)) names
      | some d =>
          rw [List.filterMap_cons_some known] at names ⊢
          obtain ⟨hd, names⟩ := List.forall_mem_cons.mp names
          obtain ⟨cs', fits', spells', shown'⟩ := ih fits.2 later (fun d hd => kept d (List.mem_cons_of_mem c hd)) names
          obtain ⟨c', d', known', shown, spells, fit⟩ :=
            exists_restatedDeclaration fits.1 first (kept c List.mem_cons_self) known hd
          cases left : cs.filterMap Clause.declaration? with
          | nil =>
              refine ⟨[c'], ⟨fit [] (by simp), trivial⟩, ?_, ?_⟩
              · rw [listNodes, listNodes, List.append_nil]
                exact spells
              · rw [List.filterMap_cons_some known', List.map_cons, shown]
                rfl
          | cons e more =>
              rw [left] at spells' shown'
              let semicolon : Token := ⟨.semicolon, {}, [';']⟩
              have mark : Spells (some .curly) [.leaf semicolon] [';'] Anywhere := .mark rfl rfl
              have whole := spells.append (mark.append spells' fun _ _ => trivial) fun rest _ =>
                startsMark_of_mem (by decide) _
              refine ⟨c' :: .idle semicolon :: cs', ⟨fit _ (by simp [listNodes, Clause.nodes, Node.kind?, semicolon]),
                by simp [Clause.Fits, semicolon, Level.idle], fits'⟩, ?_, ?_⟩
              · have text : (compactDeclarations (d :: e :: more)).toList =
                    d.compact.toList ++ ([';'] ++ (compactDeclarations (e :: more)).toList) := by
                  simp [compactDeclarations]
                rw [text]
                exact whole
              · rw [List.filterMap_cons_some known', List.map_cons, List.filterMap_cons_none rfl, shown', shown]
                rfl

/-! Style rules. -/

/-- A list of rules that is spelled like the compact form of others, and shows the same. -/
structure RestatesRules (around : Option Bracket) (nested : Bool) (cs : List Clause) (rules : List Rule) : Prop where
  fits : AllFit (.rules nested) cs
  spells : Spells around (listNodes cs) (Rule.compactList rules).toList Anywhere
  shown : Rule.listShown (listRules cs) = Rule.listShown rules

theorem RestatesRules.nil {around : Option Bracket} {nested : Bool} : RestatesRules around nested [] [] := ⟨trivial, .nil, rfl⟩

/-- Something in a list of rules that is spelled like the compact form of a rule, and shows the same. -/
structure RestatesRule (around : Option Bracket) (nested : Bool) (c : Clause) (r : Rule) : Prop where
  fits : ∀ behind, c.Fits (.rules nested) behind
  spells : Spells around c.nodes r.compact.toList Anywhere
  shown : c.rule?.map Rule.shown = some r.shown

theorem RestatesRules.cons {around : Option Bracket} {nested : Bool} {c : Clause} {cs : List Clause} {r : Rule} {rules : List Rule}
    (first : RestatesRule around nested c r) (h : RestatesRules around nested cs rules) :
    RestatesRules around nested (c :: cs) (r :: rules) := by
  obtain ⟨r', known, same⟩ := Option.map_eq_some_iff.mp first.shown
  refine ⟨⟨first.fits _, h.fits⟩, ?_, ?_⟩
  · rw [listNodes, Rule.compactList, String.toList_append]
    exact first.spells.append h.spells fun _ _ => trivial
  · rw [listRules, known, Option.toList_some, List.singleton_append, Rule.listShown, Rule.listShown, same, h.shown]

theorem Level.BeginsStyle.alike {nested : Bool} {m n : Node} (h : Level.BeginsStyle nested n) (alike : m.Alike n) :
    Level.BeginsStyle nested m := by
  intro kind same
  rw [alike.1] at same
  exact h kind same

/-- The contents of a closed block in closed nodes. -/
theorem closed_contents {around : Option Bracket} {head contents : List Node} {opener : Token} {closer : Option Token}
    (nested : Node.AreNested around false (head ++ [.block (.bracket .curly) opener contents closer])) :
    Node.AreNested around false head ∧ Node.AreNested (some .curly) false contents := by
  obtain ⟨front, ⟨-, inside, -, ends⟩, -⟩ := Node.areNested_append.mp nested
  cases closer with
  | none => exact absurd (ends rfl) Bool.false_ne_true
  | some t => exact ⟨front, inside⟩

theorem exists_restatedStyle {around : Option Bracket} {nested : Bool} {head behind : List Node} {opener : Token}
    {body : List Clause} {closer : Option Token} (fits : (Clause.style head opener body closer).Fits (.rules nested) behind)
    (closed : Node.AreNested around false (Clause.style head opener body closer).nodes)
    (silent : (selectors (Clause.start head opener).line head.reverse).issues = []) (kept : IsKept head)
    (keptBody : ∀ c ∈ body, IsKept c.parts) (names : ∀ d ∈ body.filterMap Clause.declaration?, IsName d.name.toList) :
    ∃ c, RestatesRule around nested c (.style ⟨(Clause.start head opener).line,
      (selectors (Clause.start head opener).line head.reverse).items, body.filterMap Clause.declaration?⟩) := by
  obtain ⟨⟨_, same, begins⟩, flat, fit⟩ := fits
  cases same
  obtain ⟨front, inside⟩ := closed_contents closed
  obtain ⟨ms, cut⟩ := exists_tightens front
  obtain ⟨rest, row, -⟩ := kept.row
  obtain ⟨body', restated⟩ := exists_restatedDeclarations body fit inside keptBody names
  have block : Spells around [curlyBlock (listNodes body')] _ Anywhere :=
    restated.spells.curly fun rest => startsMark_of_mem (by decide) rest
  refine ⟨.style ms ⟨.opening .curly, {}, ['\x7b']⟩ body' (some ⟨.closing .curly, {}, ['\x7d']⟩), fun _ => ⟨⟨nested, rfl, ?_⟩, ?_,
    restated.fits⟩, ?_, ?_⟩
  · intro m hm
    have visible : ∀ n ∈ head.head?, n.kind? ≠ some .whitespace := fun n hn blank =>
      (begins n hn _ blank).1 (by cases nested <;> simp [Level.idle])
    obtain ⟨n, hn, alike⟩ := cut.sifts.first visible m hm
    exact (begins n hn).alike alike
  · intro m hm
    obtain ⟨n, hn, -, curly⟩ := cut.sifts.alike m hm
    rw [curly, flat n hn]
  · rw [Rule.compact, StyleRule.compact, String.toList_append, intercalate_selectors row silent, toList_compactBlock]
    exact (kept.spells cut).append block fun rest _ => startsMark_of_mem (by decide) _
  · have items (line : Nat) : (selectors line ms.reverse).items = (selectors (Clause.start head opener).line head.reverse).items :=
      (congrArg Reading.items (cut.selectors row line)).trans rfl
    simp only [Clause.rule?, Option.map_some, Rule.shown, StyleRule.shown, items, restated.shown]

/-! At-rules. -/

/-- At-rules with a block: its contents may be those of another. -/
theorem exists_restatedBlock {around : Option Bracket} {nested : Bool} {prelude : List Node} (kept : IsKept prelude)
    (closed : Node.AreNested around false prelude) (inside : ∀ n ∈ prelude, InPrelude n) {word contents : String} {r : Rule}
    (hn : IsName word.toLower.toList) {body : List Clause} (fits : AllFit (.ofName word.toLower) body)
    {stops : List Char → Prop} (spells : Spells (some .curly) (listNodes body) contents.toList stops)
    (hs : ∀ rest, stops ('\x7d' :: rest))
    (compact : r.compact = compactAtRule word.toLower (textOf prelude.reverse) ++ compactBlock contents)
    (shown : ∀ keyword ns opener closer, textOf ns.reverse = textOf prelude.reverse →
      (Clause.block keyword word.toLower ns opener body closer).rule?.map Rule.shown = some r.shown) :
    ∃ c, RestatesRule around nested c r := by
  obtain ⟨keyword, ns, kind, within, same, head⟩ := exists_atHead kept closed inside hn
  have lower := Selector.toLower_toLower word
  have block : Spells around [curlyBlock (listNodes body)] _ Anywhere := spells.curly hs
  refine ⟨.block keyword word.toLower ns ⟨.opening .curly, {}, ['\x7b']⟩ body (some ⟨.closing .curly, {}, ['\x7d']⟩),
    fun _ => ⟨kind, within, by rwa [lower]⟩, ?_, shown _ _ _ _ same⟩
  rw [compact, String.toList_append, toList_compactBlock]
  exact head.append block fun rest _ => startsMark_of_mem (by decide) _

/-- At-rules without a block, from the nodes of one. -/
theorem RestatesRule.statement {around : Option Bracket} {nested : Bool} {name : String} {rule : Nat → Rule} {r : Rule} {line : Nat}
    (written : Written r.compact.toList Anywhere (IsStatement name rule)) (lower : name.toLower = name) (same : r = rule line)
    (lines : ∀ line line', (rule line).shown = (rule line').shown) : ∃ c, RestatesRule around nested c r := by
  obtain ⟨ns, spells, t, prelude, u, rfl, kind, -, inside, semicolon, known⟩ :=
    written.exists_spells (show Anywhere [] from trivial) around
  refine ⟨.statement t name prelude (some u), fun _ => ⟨kind, inside, ?_, fun none => by cases none⟩, spells, ?_⟩
  · rintro _ ⟨⟩
    exact semicolon
  · rw [Clause.rule?, lower, known, Option.map_some, same, lines]

/-- A style rule whose properties need no escape in their names. -/
def StyleRule.IsWritable (r : StyleRule) : Prop := ∀ d ∈ r.declarations, IsName d.name.toList

namespace Rule

mutual
/-- A rule of which everything is written as it is read: names that need no escape, addresses that can stand in quotes, and
media that are plain words. -/
def IsWritable : Rule → Prop
  | .style r => r.IsWritable
  | .group _ name _ rules => IsName name.toList ∧ AllWritable rules
  | .keyframes _ keyword _ frames => IsName keyword.toList ∧ ∀ frame ∈ frames, frame.IsWritable
  | .charset _ encoding => IsAddress encoding
  | .imported _ url media => IsAddress url ∧ IsPhrase media
  | .descriptors _ name _ ds => IsName name.toList ∧ ∀ d ∈ ds, IsName d.name.toList
  | .statement _ name _ => IsName name.toList

def AllWritable : List Rule → Prop
  | [] => True
  | r :: rest => r.IsWritable ∧ AllWritable rest
end

end Rule

theorem exists_restatedStatement {around : Option Bracket} {nested : Bool} {keyword : Token} {word : String}
    {prelude : List Node} (kept : IsKept prelude) (closed : Node.AreNested around false prelude)
    (inside : ∀ n ∈ prelude, InPrelude n)
    (writable : (atRuleWithoutBlock word.toLower keyword.line prelude.reverse).IsWritable) :
    ∃ c, RestatesRule around nested c (atRuleWithoutBlock word.toLower keyword.line prelude.reverse) := by
  by_cases charset : word.toLower = "charset"
  · obtain ⟨encoding, same⟩ : ∃ encoding, atRuleWithoutBlock word.toLower keyword.line prelude.reverse =
        .charset keyword.line encoding := ⟨_, if_pos charset⟩
    rw [same] at writable ⊢
    exact RestatesRule.statement (written_charset writable) toLower_charset rfl fun _ _ => rfl
  · by_cases import_ : word.toLower = "import"
    · obtain ⟨url, media, same⟩ : ∃ url media, atRuleWithoutBlock word.toLower keyword.line prelude.reverse =
          .imported keyword.line url media := by
        simp only [atRuleWithoutBlock, if_neg charset, if_pos import_]
        split <;> exact ⟨_, _, rfl⟩
      rw [same] at writable ⊢
      exact RestatesRule.statement (written_imported writable.1 writable.2) toLower_import rfl fun _ _ => rfl
    · have rule (line : Nat) (ns : List Node) :
          atRuleWithoutBlock word.toLower line ns = .statement line word.toLower (textOf ns) := by
        simp only [atRuleWithoutBlock, if_neg charset, if_neg import_]
      rw [rule] at writable ⊢
      obtain ⟨keyword, ns, kind, within, same, head⟩ := exists_atHead kept closed inside writable
      let semicolon : Token := ⟨.semicolon, {}, [';']⟩
      have mark : Spells around [.leaf semicolon] [';'] Anywhere := .mark rfl rfl
      refine ⟨.statement keyword word.toLower ns (some semicolon), fun _ => ⟨kind, within, ?_, fun none => by cases none⟩, ?_, ?_⟩
      · rintro _ ⟨⟩
        rfl
      · rw [Rule.compact, String.toList_append]
        exact head.append mark fun rest _ => startsMark_of_mem (by decide) rest
      · rw [Clause.rule?, Selector.toLower_toLower, rule, Option.map_some, Rule.shown, Rule.shown, same]

/-! Lists of rules. -/

theorem Rule.allWritable_iff {rules : List Rule} : AllWritable rules ↔ ∀ r ∈ rules, r.IsWritable := by
  induction rules with
  | nil => simp [AllWritable]
  | cons r rest ih => rw [AllWritable, ih, List.forall_mem_cons]

/-- The style rules among others. -/
theorem Rule.filter_style? (rules : List Rule) :
    rules.filter (·.style?.isSome) = (rules.filterMap Rule.style?).map .style := by
  induction rules with
  | nil => rfl
  | cons r rest ih =>
      rw [List.filter_cons, List.filterMap_cons, ih]
      cases r <;> rfl

theorem Rule.filterMap_style (frames : List StyleRule) : (frames.map Rule.style).filterMap style? = frames := by
  rw [List.filterMap_map]
  exact List.filterMap_some

theorem Rule.compactList_style (frames : List StyleRule) :
    compactList (frames.map .style) = String.join (frames.map StyleRule.compact) := by
  induction frames with
  | nil => rfl
  | cons frame frames ih => rw [List.map_cons, List.map_cons, compactList, ih, String.join_cons, compact]

theorem Rule.style?_listShown (rules : List Rule) :
    (listShown rules).filterMap style? = (rules.filterMap style?).map StyleRule.shown := by
  rw [listShown_eq_map, List.filterMap_map, List.map_filterMap]
  exact congrArg (List.filterMap · rules) (funext style?_shown)

theorem Clause.mem_listAll {c : Clause} {cs : List Clause} (h : c ∈ cs) : c ∈ listAll cs := by
  induction cs with
  | nil => cases h
  | cons d cs ih =>
      rw [listAll, List.mem_append]
      rcases List.mem_cons.mp h with rfl | later
      · exact .inl (mem_all c)
      · exact .inr (ih later)

mutual
/-- For what stands for a rule there is something that is spelled like the compact form of the rule, and shows the same. -/
theorem exists_restatedRule : ∀ (c : Clause) {around : Option Bracket} {nested : Bool} {behind : List Node} {stop : Ending}
    {next : Nat} {r : Rule}, c.Fits (.rules nested) behind → Node.AreNested around false c.nodes → c.issues stop next = [] →
      (∀ d ∈ c.all, IsKept d.parts) → c.rule? = some r → r.IsWritable → ∃ c', RestatesRule around nested c' r
  | .style head opener body closer, _, _, _, _, _, _, fits, closed, silent, kept, known, writable => by
      obtain rfl := Option.some.inj known
      exact exists_restatedStyle fits closed (List.append_eq_nil_iff.mp silent).1 (kept _ (Clause.mem_all _))
        (fun d hd => kept d (List.mem_cons_of_mem _ (Clause.mem_listAll hd))) writable
  | .block keyword word prelude opener body closer, around, nested, _, stop, _, _, ⟨_, inside, fit⟩, closed, silent, kept, known,
      writable => by
      obtain ⟨front, contents⟩ := closed_contents closed.2
      have quiet := (List.append_eq_nil_iff.mp silent).1
      have part : ∀ d ∈ Clause.listAll body, IsKept d.parts := fun d hd => kept d (List.mem_cons_of_mem _ hd)
      have ahead : IsKept prelude := kept _ (Clause.mem_all _)
      have lower := Selector.toLower_toLower word
      simp only [Clause.rule?, Option.some.injEq] at known
      cases kind : BlockKind.ofName word.toLower with
      | rules =>
          have level : Level.ofName word.toLower = .rules true := by rw [Level.ofName, kind]
          rw [kind] at known
          subst known
          obtain ⟨body', restated⟩ := exists_restatedRules (fun _ => true) body (level ▸ fit) contents quiet part fun r hr =>
            Rule.allWritable_iff.mp writable.2 r (List.mem_of_mem_filter hr)
          rw [List.filter_true] at restated
          refine exists_restatedBlock ahead front inside writable.1 (level ▸ restated.fits) restated.spells (fun _ => trivial) rfl ?_
          intro keyword ns opener closer same
          simp only [Clause.rule?, lower, kind, Option.map_some, Rule.shown, same, restated.shown]
      | keyframes =>
          have level : Level.ofName word.toLower = .rules true := by rw [Level.ofName, kind]
          rw [kind] at known
          subst known
          obtain ⟨body', restated⟩ := exists_restatedRules (·.style?.isSome) body (level ▸ fit) contents quiet part fun r hr => by
            rw [Rule.filter_style?] at hr
            obtain ⟨frame, hf, rfl⟩ := List.mem_map.mp hr
            exact writable.2 frame hf
          rw [Rule.filter_style?] at restated
          have spells := restated.spells
          rw [Rule.compactList_style] at spells
          refine exists_restatedBlock ahead front inside writable.1 (level ▸ restated.fits) spells (fun _ => trivial) rfl ?_
          intro keyword ns opener closer same
          have frames := congrArg (List.filterMap Rule.style?) restated.shown
          rw [Rule.style?_listShown, Rule.style?_listShown, Rule.filterMap_style] at frames
          simp only [Clause.rule?, lower, kind, Option.map_some, Rule.shown, same, frames]
      | declarations =>
          have level : Level.ofName word.toLower = .declarations := by rw [Level.ofName, kind]
          rw [kind] at known
          subst known
          obtain ⟨body', restated⟩ := exists_restatedDeclarations body (level ▸ fit) contents
            (fun d hd => part d (Clause.mem_listAll hd)) writable.2
          refine exists_restatedBlock ahead front inside writable.1 (level ▸ restated.fits) restated.spells
            (fun rest => startsMark_of_mem (by decide) rest) rfl ?_
          intro keyword ns opener closer same
          simp only [Clause.rule?, lower, kind, Option.map_some, Rule.shown, same, restated.shown]
  | .statement keyword word prelude semicolon, _, _, _, _, _, _, ⟨_, inside, _⟩, closed, _, kept, known, writable => by
      obtain rfl := Option.some.inj known
      exact exists_restatedStatement (kept _ (Clause.mem_all _)) (Node.areNested_append.mp closed.2).1.anywhere inside writable
  | .idle .., _, _, _, _, _, _, _, _, _, _, known, _ | .stray .., _, _, _, _, _, _, _, _, _, _, known, _
  | .bare .., _, _, _, _, _, _, _, _, _, _, known, _ | .declaration .., _, _, _, _, _, _, _, _, _, _, known, _
  | .noColon .., _, _, _, _, _, _, _, _, _, _, known, _ | .unexpected .., _, _, _, _, _, _, _, _, _, _, known, _ => by cases known

/-- So there is for those of a list of rules that are kept. -/
theorem exists_restatedRules (p : Rule → Bool) : ∀ (cs : List Clause) {around : Option Bracket} {nested : Bool} {stop : Ending},
    AllFit (.rules nested) cs → Node.AreNested around false (listNodes cs) → listIssues stop cs = [] →
      (∀ d ∈ Clause.listAll cs, IsKept d.parts) → (∀ r ∈ (listRules cs).filter p, r.IsWritable) →
        ∃ cs', RestatesRules around nested cs' ((listRules cs).filter p)
  | [], _, _, _, _, _, _, _, _ => ⟨[], .nil⟩
  | c :: cs, around, nested, stop, fits, closed, silent, kept, writable => by
      obtain ⟨first, later⟩ := Node.areNested_append.mp closed
      obtain ⟨quiet, silent⟩ := List.append_eq_nil_iff.mp silent
      obtain ⟨here, there⟩ := List.forall_mem_append.mp kept
      rw [listRules] at writable ⊢
      cases known : c.rule? with
      | none =>
          rw [known] at writable
          exact exists_restatedRules p cs fits.2 later silent there writable
      | some r =>
          rw [known] at writable
          rw [Option.toList_some, List.singleton_append, List.filter_cons] at writable ⊢
          split at writable
          · next kept' =>
              obtain ⟨one, others⟩ := List.forall_mem_cons.mp writable
              obtain ⟨c', restated⟩ := exists_restatedRule c fits.1 first.anywhere quiet here known one
              obtain ⟨cs', restated'⟩ := exists_restatedRules p cs fits.2 later silent there others
              rw [if_pos kept']
              exact ⟨c' :: cs', restated'.cons restated⟩
          · next other =>
              rw [if_neg other]
              exact exists_restatedRules p cs fits.2 later silent there writable
end

end StyleAudit.Css
