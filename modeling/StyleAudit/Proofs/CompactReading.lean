import StyleAudit.Css.Compact
import StyleAudit.Proofs.Phrases
/-!
Reading undoes the compact form. What is read back starts on the first line throughout, since that is where all of the
compact text stands.
-/
namespace StyleAudit.Css

open Selector (StopsAt isIdentifier)

/-! Style sheets of plain words. -/

/-- Words with single spaces between them. -/
def IsPhrase (text : String) : Prop :=
  ∃ words : List String, (∀ word ∈ words, isIdentifier word.toList = true) ∧ text = " ".intercalate words

/-- A word, with at most one mark of a class or an id before it. -/
def IsSelectorWord (text : List Char) : Prop :=
  isIdentifier text = true ∨ ∃ word, isIdentifier word = true ∧ (text = '.' :: word ∨ text = '#' :: word)

def IsSelector (text : String) : Prop :=
  ∃ words : List String, words ≠ [] ∧ (∀ word ∈ words, IsSelectorWord word.toList) ∧ text = " ".intercalate words

/-- The name of an at-rule, which is held in lower case. -/
def IsAtName (name : String) : Prop := isIdentifier name.toList = true ∧ name.toLower = name

def IsAddress (text : String) : Prop := ∀ c ∈ text.toList, isQuotable c = true

structure Declaration.Canonical (d : Declaration) : Prop where
  name : isIdentifier d.name.toList = true
  value : ∃ words : List String, (∀ word ∈ words, isIdentifier word.toList = true) ∧ d.text = " ".intercalate words ∧
    d.value = wordValues words

structure StyleRule.Canonical (r : StyleRule) : Prop where
  some : r.selectors ≠ []
  selectors : ∀ text ∈ r.selectors, IsSelector text
  declarations : ∀ d ∈ r.declarations, d.Canonical

namespace Rule

mutual
/-- A rule whose texts are made of words, and whose name and shape agree. -/
def Canonical : Rule → Prop
  | .style r => r.Canonical
  | .group _ name prelude rules => IsAtName name ∧ name ∈ groupNames ∧ IsPhrase prelude ∧ AllCanonical rules
  | .keyframes _ keyword name frames =>
    IsAtName keyword ∧ "keyframes".toList <:+ keyword.toList ∧ IsPhrase name ∧ ∀ frame ∈ frames, frame.Canonical
  | .charset _ encoding => IsAddress encoding
  | .imported _ url media => IsAddress url ∧ IsPhrase media
  | .descriptors _ name prelude ds =>
    IsAtName name ∧ name ∉ groupNames ∧ ¬ "keyframes".toList <:+ name.toList ∧ IsPhrase prelude ∧
      ∀ d ∈ ds, d.Canonical
  | .statement _ name prelude => IsAtName name ∧ name ≠ "charset" ∧ name ≠ "import" ∧ IsPhrase prelude

def AllCanonical : List Rule → Prop
  | [] => True
  | r :: rest => r.Canonical ∧ AllCanonical rest
end

end Rule

/-! The same on another line. -/

def Declaration.onLine (line : Nat) (d : Declaration) : Declaration := { d with line := line }

def StyleRule.onLine (line : Nat) (r : StyleRule) : StyleRule :=
  ⟨line, r.selectors, r.declarations.map (Declaration.onLine line)⟩

namespace Rule

mutual
/-- A rule with all that is in it on one line. -/
def onLine (line : Nat) : Rule → Rule
  | .style r => .style (r.onLine line)
  | .group _ name prelude rules => .group line name prelude (allOnLine line rules)
  | .keyframes _ keyword name frames => .keyframes line keyword name (frames.map (StyleRule.onLine line))
  | .charset _ encoding => .charset line encoding
  | .imported _ url media => .imported line url media
  | .descriptors _ name prelude ds => .descriptors line name prelude (ds.map (Declaration.onLine line))
  | .statement _ name prelude => .statement line name prelude

def allOnLine (line : Nat) : List Rule → List Rule
  | [] => []
  | r :: rest => r.onLine line :: allOnLine line rest
end

end Rule

/-! A separator, and a list of what it separates. -/

theorem written_mark {kind : TokenKind} {c : Char} (h : punctuation? c = some kind) (hl : kind.IsLeaf) :
    Written [c] Anywhere (Leaves [Piece.mark kind c]) := by
  have leaf : Written (spelling [Piece.mark kind c]) Anywhere (Leaves [Piece.mark kind c]) :=
    .leaves (by simpa [Piece.mark] using hl) fun rest _ => ⟨ReadBefore.mark h _, trivial⟩
  simpa [spelling, Piece.mark] using leaf

/-- Two texts with a separator between them. -/
theorem Written.separated {text other : List Char} {form form' : List Node → Prop} {kind : TokenKind} {c : Char}
    (h : Written text WordEnd form) (hk : punctuation? c = some kind) (hl : kind.IsLeaf) (hc : extendsWord c = false)
    (h' : Written other WordEnd form') :
    Written (text ++ c :: other) WordEnd
      fun nodes => ∃ ms t ns, nodes = ms ++ .leaf t :: ns ∧ form ms ∧ t.kind = kind ∧ form' ns := by
  have whole := h.append ((written_mark hk hl).append h' fun _ _ => trivial) fun rest _ => StopsAt.cons hc
  refine whole.mono (fun _ hr => hr) ?_
  rintro nodes ⟨ms, _, rfl, known, _, ns, rfl, ⟨ts, carries, rfl⟩, known'⟩
  obtain ⟨t, none, rfl, same, -, -, carries⟩ := carries.cons
  obtain rfl := carries.nil
  exact ⟨ms, t, ns, rfl, known, same, known'⟩

/-! Declarations. -/

/-- Nodes that are read as one declaration, at the end or in front of a semicolon. -/
def ReadsDeclaration (d : Declaration) (nodes : List Node) : Prop := ∀ stop,
  readDeclarations stop .nothing nodes = ⟨[d], []⟩ ∧ ∀ n rest, n.kind? = some .semicolon →
    readDeclarations stop .nothing (nodes ++ n :: rest) = ⟨[d], []⟩ ++ readDeclarations stop .nothing rest

/-- Nodes that are all of a list of declarations. -/
def ReadsDeclarations (ds : List Declaration) (nodes : List Node) : Prop :=
  ∀ stop, readDeclarations stop .nothing nodes = ⟨ds, []⟩

theorem readsDeclaration_of (d : Declaration) {nodes : List Node}
    (h : Both (Leaves [Piece.word d.name.toList, Piece.mark .colon ':']) (IsValue d) nodes) :
    ReadsDeclaration (d.onLine 1) nodes := by
  obtain ⟨ms, ns, rfl, ⟨ts, carries, rfl⟩, semicolons, head, value⟩ := h
  obtain ⟨t, more, rfl, kind, -, line, carries⟩ := carries.cons
  obtain ⟨u, none, rfl, kind', -, -, carries⟩ := carries.cons
  obtain rfl := carries.nil
  have start (stop : Ending) (rest : List Node) :
      readDeclarations stop .nothing ([t, u].map .leaf ++ (ns ++ rest)) =
        readDeclarations stop (.value d.name 1 ns.reverse) rest := by
    have name : (Node.leaf t).kind? = some (.ident d.name) := by simp [Node.kind?, kind, Piece.word]
    have colon : (Node.leaf u).kind? = some .colon := by simp [Node.kind?, kind', Piece.mark]
    have first : (Node.leaf t).line = 1 := line
    rw [List.map_cons, List.map_cons, List.map_nil, List.cons_append, List.cons_append, List.nil_append,
      readDeclarations.eq_def]
    simp only [name, first]
    rw [readDeclarations.eq_def]
    simp only [colon]
    rw [readDeclarations_value semicolons (.inr head), List.append_nil]
  intro stop
  refine ⟨?_, ?_⟩
  · have whole := start stop []
    rw [List.append_nil] at whole
    rw [whole, readDeclarations.eq_def]
    simp only [value, Reading.item, Declaration.onLine]
  · intro n rest semicolon
    rw [List.append_assoc, start, readDeclarations.eq_def]
    simp only [semicolon, if_true, value, Reading.item, Declaration.onLine]

theorem written_declaration {d : Declaration} (h : d.Canonical) :
    Written d.compact.toList WordEnd (ReadsDeclaration (d.onLine 1)) := by
  obtain ⟨name, value, text, important, line⟩ := d
  obtain ⟨ident, words, plain, rfl, rfl⟩ := h
  have front : Written (spelling [Piece.word name.toList, Piece.mark .colon ':']) Anywhere
      (Leaves [Piece.word name.toList, Piece.mark .colon ':']) := by
    refine Written.leaves ?_ fun rest _ => ⟨ReadBefore.word ident (StopsAt.cons (by decide)), ReadBefore.mark rfl _, trivial⟩
    exact List.forall_mem_cons.mpr ⟨⟨rfl, by simp [Piece.word]⟩, by simp [Piece.mark, TokenKind.IsLeaf, TokenKind.opens?]⟩
  have whole := front.append (written_value plain name important line) fun _ _ => trivial
  have text : (Declaration.compact ⟨name, wordValues words, " ".intercalate words, important, line⟩).toList =
      spelling [Piece.word name.toList, Piece.mark .colon ':'] ++
        (" ".intercalate words ++ if important then "!important" else "").toList := by
    simp [Declaration.compact, spelling, Piece.word, Piece.mark]
  rw [text]
  refine whole.mono (fun _ hr => hr) fun nodes both => ?_
  exact readsDeclaration_of ⟨name, wordValues words, " ".intercalate words, important, line⟩ both

theorem written_declarations {ds : List Declaration} (h : ∀ d ∈ ds, d.Canonical) :
    Written (compactDeclarations ds).toList WordEnd (ReadsDeclarations (ds.map (Declaration.onLine 1))) := by
  induction ds with
  | nil =>
      refine ⟨[], rfl, fun _ _ => trivial, fun ts carries => ⟨[], ?_, ?_⟩⟩
      · rw [carries.nil]
        exact .nil
      · intro stop
        rw [readDeclarations.eq_def]
        rfl
  | cons d ds ih =>
      have first := written_declaration (h d (by simp))
      have later := ih fun e he => h e (by simp [he])
      cases ds with
      | nil => exact first.mono (fun _ hr => hr) fun nodes reads stop => (reads stop).1
      | cons e ds =>
          have whole := first.separated (c := ';') rfl ⟨rfl, by simp⟩ (by decide) later
          have text : (compactDeclarations (d :: e :: ds)).toList =
              d.compact.toList ++ ';' :: (compactDeclarations (e :: ds)).toList := by
            simp [compactDeclarations]
          rw [text]
          refine whole.mono (fun _ hr => hr) ?_
          rintro nodes ⟨ms, t, ns, rfl, reads, kind, reads'⟩ stop
          have semicolon : (Node.leaf t).kind? = some .semicolon := by rw [Node.kind?, kind]
          rw [(reads stop).2 _ _ semicolon, reads' stop]
          rfl

/-! Selectors. -/

/-- The tokens with which a selector of words begins. -/
def TokenKind.beginsSelector : TokenKind → Bool
  | .ident _ | .hash _ _ => true
  | .delim c => c == '.'
  | _ => false

/-- Leaves that are read as just these selectors, in front of nothing or of a comma. -/
def ReadsSelectors (texts : List String) (nodes : List Node) : Prop :=
  ∃ t more, nodes = (t :: more).map .leaf ∧ t.kind.beginsSelector = true ∧ t.line = 1 ∧
    (∀ u ∈ t :: more, u.kind.IsLeaf) ∧
    (splitSelectors 0 (t :: more)).map (fun ts => String.ofList (compactText ts)) = texts

theorem splitSelectors_leaf {t : Token} (h : t.kind.IsLeaf) (rest : List Token) :
    splitSelectors 0 (t :: rest) = if t.kind = .comma then [] :: splitSelectors 0 rest
      else match splitSelectors 0 rest with
        | [] => [[t]]
        | selector :: more => (t :: selector) :: more := by
  obtain ⟨opens, closes⟩ := h
  have noOpening : t.kind.opensBlock = false := by simp [TokenKind.opensBlock, opens]
  have noClosing : t.kind.closesBlock = false := by
    unfold TokenKind.closesBlock
    split
    · next b same => exact absurd same (closes b)
    · rfl
  by_cases comma : t.kind = .comma
  · rw [if_pos comma]
    exact if_pos ⟨comma, rfl⟩
  · rw [if_neg comma, splitSelectors, if_neg fun both => comma both.1, noOpening, noClosing]
    rfl

theorem splitSelectors_single {ts : List Token} (h : ∀ t ∈ ts, t.kind.IsLeaf ∧ t.kind ≠ .comma) :
    splitSelectors 0 ts = [ts] := by
  induction ts with
  | nil => rfl
  | cons t ts ih =>
      obtain ⟨leaf, comma⟩ := h t (by simp)
      rw [splitSelectors_leaf leaf, if_neg comma, ih fun u hu => h u (by simp [hu])]

theorem splitSelectors_comma {ts us : List Token} {c : Token} (h : ∀ t ∈ ts, t.kind.IsLeaf) (hc : c.kind = .comma) :
    splitSelectors 0 (ts ++ c :: us) = splitSelectors 0 ts ++ splitSelectors 0 us := by
  have leaf : c.kind.IsLeaf := ⟨by rw [hc]; rfl, by simp [hc]⟩
  induction ts with
  | nil => rw [List.nil_append, splitSelectors_leaf leaf, if_pos hc]; rfl
  | cons t ts ih =>
      have tail := ih fun u hu => h u (by simp [hu])
      rw [List.cons_append, splitSelectors_leaf (h t (by simp)), splitSelectors_leaf (h t (by simp)), tail]
      split
      · rfl
      · have some : splitSelectors 0 ts ≠ [] := by
          cases ts with
          | nil => simp [splitSelectors]
          | cons u ts =>
              rw [splitSelectors_leaf (h u (by simp))]
              split
              · simp
              · split <;> simp
        cases front : splitSelectors 0 ts with
        | nil => exact absurd front some
        | cons selector more => rfl

theorem unit_selectorWord {text : List Char} (h : IsSelectorWord text) :
    ∃ p unit, IsUnit (p :: unit) ∧ spelling (p :: unit) = text ∧ p.kind.beginsSelector = true := by
  rcases h with word | ⟨word, ident, rfl | rfl⟩
  · exact ⟨_, _, .word word, by simp [spelling, Piece.word], rfl⟩
  · exact ⟨_, _, .dotted ident, by simp [spelling, Piece.word, Piece.dot, Piece.mark], rfl⟩
  · exact ⟨_, _, .hash ident, by simp [spelling, Piece.hash], rfl⟩

theorem units_selectorWords {words : List String} (h : ∀ word ∈ words, IsSelectorWord word.toList) :
    ∃ units : List (List Piece), (∀ unit ∈ units, IsUnit unit) ∧ units.map spelling = words.map String.toList := by
  induction words with
  | nil => exact ⟨[], by simp, rfl⟩
  | cons word words ih =>
      obtain ⟨p, unit, first, spelled, _⟩ := unit_selectorWord (h word (by simp))
      obtain ⟨units, later, same⟩ := ih fun w hw => h w (by simp [hw])
      exact ⟨(p :: unit) :: units, List.forall_mem_cons.mpr ⟨first, later⟩, by simp [spelled, same]⟩

theorem phrase_cons (p : Piece) (unit : List Piece) (units : List (List Piece)) :
    ∃ more, phrase ((p :: unit) :: units) = p :: more := by
  cases units with
  | nil => exact ⟨unit, rfl⟩
  | cons next units => exact ⟨_, rfl⟩

theorem written_selector {text : String} (h : IsSelector text) :
    Written text.toList WordEnd (ReadsSelectors [text]) := by
  obtain ⟨words, some, plain, rfl⟩ := h
  cases words with
  | nil => exact absurd rfl some
  | cons word words =>
      obtain ⟨p, unit, first, spelled, begins⟩ := unit_selectorWord (plain word (by simp))
      obtain ⟨units, later, same⟩ := units_selectorWords fun w hw => plain w (List.mem_cons_of_mem word hw)
      have all : ∀ u ∈ (p :: unit) :: units, IsUnit u := List.forall_mem_cons.mpr ⟨first, later⟩
      have kinds := phrase_kinds all
      have text : (" ".intercalate (word :: words)).toList = spelling (phrase ((p :: unit) :: units)) := by
        rw [spelling_phrase, String.toList_intercalate, List.map_cons, List.map_cons, spelled, same]
        rfl
      rw [text]
      refine (Written.leaves (fun q hq => (kinds q hq).1) fun rest hr => phrase_apart all hr).mono (fun _ hr => hr) ?_
      rintro nodes ⟨ts, carries, rfl⟩
      have compact := (Compacts.phrase all (by simp) carries).compactText_eq
      have leaves : ∀ t ∈ ts, t.kind.IsLeaf ∧ t.kind ≠ .comma :=
        carries.forall_kind (fun kind => kind.IsLeaf ∧ kind ≠ .comma) fun q hq => ⟨(kinds q hq).1, (kinds q hq).2.1⟩
      have split := splitSelectors_single leaves
      obtain ⟨more, cons⟩ := phrase_cons p unit units
      rw [cons] at carries
      obtain ⟨t, ts, rfl, kind, -, line, -⟩ := carries.cons
      refine ⟨t, ts, rfl, kind ▸ begins, line, fun u hu => (leaves u hu).1, ?_⟩
      rw [split, List.map_singleton, compact, ← text, String.ofList_toList]

theorem written_selectors {texts : List String} (h : ∀ text ∈ texts, IsSelector text) (hne : texts ≠ []) :
    Written (",".intercalate texts).toList WordEnd (ReadsSelectors texts) := by
  induction texts with
  | nil => exact absurd rfl hne
  | cons text texts ih =>
      have first := written_selector (h text (by simp))
      cases texts with
      | nil => simpa using first
      | cons next texts =>
          have later := ih (fun t ht => h t (by simp [ht])) (by simp)
          have whole := first.separated (c := ',') rfl ⟨rfl, by simp⟩ (by decide) later
          have text : (",".intercalate (text :: next :: texts)).toList =
              text.toList ++ ',' :: (",".intercalate (next :: texts)).toList := by
            rw [String.intercalate_cons_cons, String.toList_append, String.toList_append, List.append_assoc]
            rfl
          rw [text]
          refine whole.mono (fun _ hr => hr) ?_
          rintro nodes ⟨_, c, _, rfl, ⟨t, ts, rfl, begins, line, leaves, read⟩, kind, u, us, rfl, -, -, leaves', read'⟩
          have leaf : c.kind.IsLeaf := ⟨by rw [kind]; rfl, by simp [kind]⟩
          refine ⟨t, ts ++ c :: u :: us, by simp, begins, line, ?_, ?_⟩
          · intro v hv
            rw [← List.cons_append] at hv
            rcases List.mem_append.mp hv with front | back
            · exact leaves v front
            · rcases List.mem_cons.mp back with rfl | later
              · exact leaf
              · exact leaves' v later
          · rw [← List.cons_append, splitSelectors_comma leaves kind, List.map_append, read, read']
            rfl

/-! Rules. -/

/-- Nodes that are read as just these rules, whatever stands behind them. -/
def ReadsRules (rules : List Rule) (nodes : List Node) : Prop := ∀ nested stop rest,
  readRules nested stop .nothing (nodes ++ rest) = ⟨rules, []⟩ ++ readRules nested stop .nothing rest

theorem toList_compactBlock (contents : String) :
    (compactBlock contents).toList = '\x7b' :: (contents.toList ++ ['\x7d']) := by simp [compactBlock]

theorem wordEnd_compactBlock (contents : String) (rest : List Char) : WordEnd ((compactBlock contents).toList ++ rest) := by
  rw [toList_compactBlock]
  exact StopsAt.cons (by decide)

theorem written_curly {contents : String} {form : List Node → Prop} (h : Written contents.toList WordEnd form) :
    Written (compactBlock contents).toList Anywhere (Enclosed (.bracket .curly) form) := by
  have opening : (Piece.mark (.opening .curly) '\x7b').kind.opens? = some (.bracket .curly) := rfl
  have closing : (Piece.mark (.closing .curly) '\x7d').kind = .closing (Opening.closes (.bracket .curly)) := rfl
  rw [toList_compactBlock]
  exact h.block opening closing (fun _ => ReadBefore.mark rfl _) (fun _ => StopsAt.cons (by decide))
    fun _ => ReadBefore.mark rfl _

theorem selector_ne_empty {text : String} (h : IsSelector text) : text ≠ "" := by
  obtain ⟨words, some, plain, rfl⟩ := h
  refine intercalate_ne_empty (fun word hw => ?_) some
  rintro rfl
  rcases plain "" hw with ident | ⟨_, _, same | same⟩
  · cases ident
  · cases same
  · cases same

theorem readStyleBlock_enclosed {texts : List String} {ds : List Declaration} {ns : List Node} {opener closer : Token}
    {contents : List Node} (ht : ∀ text ∈ texts, text ≠ "") (hs : ReadsSelectors texts ns)
    (hd : ReadsDeclarations ds contents) (stop : Ending) (line : Nat) :
    readStyleBlock stop line ns.reverse (.block (.bracket .curly) opener contents (some closer)) =
      ⟨[.style ⟨line, texts, ds⟩], []⟩ := by
  obtain ⟨t, more, rfl, -, -, -, split⟩ := hs
  have kept : texts.filter (· ≠ "") = texts := List.filter_eq_self.mpr fun text h => by simpa using ht text h
  have names : selectors line ((t :: more).map Node.leaf).reverse = ⟨texts, []⟩ := by
    rw [selectors, List.reverse_reverse, listTokens_leaves, split, kept, if_pos rfl]
  rw [readStyleBlock, names, hd]
  rfl

/-- A token with which a selector begins begins a style rule. -/
theorem readRules_begin {t : Token} (h : t.kind.beginsSelector = true) (nested : Bool) (stop : Ending)
    (rest : List Node) :
    readRules nested stop .nothing (.leaf t :: rest) = readRules nested stop (.style t.line [.leaf t]) rest := by
  have kind : (Node.leaf t).kind? = some t.kind := rfl
  have line : (Node.leaf t).line = t.line := rfl
  have curly : (Node.leaf t).isCurly = false := rfl
  rw [readRules.eq_def]
  simp only [kind, line, curly, Bool.false_eq_true, if_false]
  cases same : t.kind with
  | ident name => simp
  | hash name kind => simp
  | delim c => simp
  | _ => rw [same] at h; cases h

theorem readsRules_style {texts : List String} {ds : List Declaration} {nodes : List Node}
    (ht : ∀ text ∈ texts, text ≠ "")
    (h : Both (ReadsSelectors texts) (Enclosed (.bracket .curly) (ReadsDeclarations ds)) nodes) :
    ReadsRules [.style ⟨1, texts, ds⟩] nodes := by
  obtain ⟨ns, _, rfl, reads, opener, contents, closer, rfl, inner⟩ := h
  intro nested stop rest
  have block := fun stop => @readStyleBlock_enclosed texts ds ns opener closer contents ht reads inner stop 1
  obtain ⟨t, more, rfl, begins, line, -, -⟩ := reads
  have leaves : ∀ n ∈ more.map Node.leaf, n.isCurly = false := by
    intro n hn
    obtain ⟨u, _, rfl⟩ := List.mem_map.mp hn
    rfl
  rw [List.append_assoc, List.map_cons, List.cons_append, readRules_begin begins, readRules_style leaves, line,
    List.singleton_append, readRules.eq_def]
  rw [List.map_cons, List.reverse_cons] at block
  simp only [Node.isCurly, if_true, block]

theorem written_styleRule {r : StyleRule} (h : r.Canonical) :
    Written r.compact.toList Anywhere (ReadsRules [.style (r.onLine 1)]) := by
  obtain ⟨some, texts, declarations⟩ := h
  have whole := (written_selectors texts some).append (written_curly (written_declarations declarations))
    fun rest _ => wordEnd_compactBlock _ rest
  rw [StyleRule.compact, String.toList_append]
  exact whole.mono (fun _ hr => hr) fun nodes both => readsRules_style (fun t ht => selector_ne_empty (texts t ht)) both

theorem reading_append (rs ss : List Rule) (r : Reading Rule) :
    (⟨rs, []⟩ : Reading Rule) ++ ((⟨ss, []⟩ : Reading Rule) ++ r) = (⟨rs ++ ss, []⟩ : Reading Rule) ++ r := by
  obtain ⟨items, issues⟩ := r
  change Reading.mk (rs ++ (ss ++ items)) _ = Reading.mk ((rs ++ ss) ++ items) _
  rw [List.append_assoc]
  rfl

theorem ReadsRules.append {rs ss : List Rule} {nodes : List Node} (h : Both (ReadsRules rs) (ReadsRules ss) nodes) :
    ReadsRules (rs ++ ss) nodes := by
  obtain ⟨ms, ns, rfl, first, later⟩ := h
  intro nested stop rest
  rw [List.append_assoc, first, later, reading_append]

/-! At-rules. -/

theorem compactAtRule_eq (name prelude : String) : compactAtRule name prelude = "@" ++ name ++ spacedPrelude prelude := rfl

/-- What stands in front of the block or semicolon of an at-rule. -/
def IsAtRuleHead (name prelude : String) : List Node → Prop :=
  Both (Leaves [Piece.atWord name.toList]) (IsPrelude prelude)

theorem wordEnd_prelude (prelude : String) {rest : List Char} (hr : WordEnd rest) :
    WordEnd ((spacedPrelude prelude).toList ++ rest) := by
  by_cases empty : prelude = ""
  · simpa [spacedPrelude, empty] using hr
  · rw [spacedPrelude, if_neg empty, String.toList_append]
    exact StopsAt.cons (by decide)

theorem written_atRule {name prelude : String} (hn : IsAtName name) (hp : IsPhrase prelude) :
    Written (compactAtRule name prelude).toList WordEnd (IsAtRuleHead name prelude) := by
  obtain ⟨words, plain, rfl⟩ := hp
  have front : Written (spelling [Piece.atWord name.toList]) WordEnd (Leaves [Piece.atWord name.toList]) :=
    .leaves (by simp [Piece.atWord, TokenKind.IsLeaf, TokenKind.opens?]) fun rest hr => ⟨ReadBefore.atWord hn.1 hr, trivial⟩
  have text : (compactAtRule name (" ".intercalate words)).toList =
      spelling [Piece.atWord name.toList] ++ (spacedPrelude (" ".intercalate words)).toList := by
    rw [compactAtRule_eq, String.toList_append, String.toList_append]
    simp [spelling, Piece.atWord]
  rw [text]
  exact front.append (written_prelude plain) fun rest hr => wordEnd_prelude _ hr

/-- An at-rule is read up to its block. -/
theorem readRules_atBlock {name prelude : String} {ms : List Node} {block : Node} (hn : name.toLower = name)
    (hm : IsAtRuleHead name prelude ms) (hb : block.isCurly = true) : ∃ ns : List Node, textOf ns = prelude ∧
      ∀ nested stop rest, readRules nested stop .nothing (ms ++ (block :: rest)) =
        readAtBlock stop name 1 ns block ++ readRules nested stop .nothing rest := by
  obtain ⟨_, ns, rfl, ⟨ts, carries, rfl⟩, inside, text, -⟩ := hm
  obtain ⟨t, none, rfl, kind, -, line, carries⟩ := carries.cons
  obtain rfl := carries.nil
  refine ⟨ns.reverse, text, fun nested stop rest => ?_⟩
  have name' : (Node.leaf t).kind? = some (.atKeyword name) := by simp [Node.kind?, kind, Piece.atWord]
  have first : (Node.leaf t).line = 1 := line
  rw [List.map_singleton, List.append_assoc, List.singleton_append, readRules.eq_def]
  simp only [name', hn, first]
  rw [readRules_prelude inside, List.append_nil, readRules.eq_def]
  simp only [hb, if_true]

theorem ReadsRules.all {rules : List Rule} {nodes : List Node} (h : ReadsRules rules nodes) {nested : Bool}
    {stop : Ending} (hs : stop.closed = true ∨ nested = false) : readRules nested stop .nothing nodes = ⟨rules, []⟩ := by
  have whole := h nested stop []
  have nothing : endOfRules nested stop = {} := by
    rcases hs with closed | outer
    · simp [endOfRules, closed]
    · simp [endOfRules, outer]
  rw [List.append_nil] at whole
  rw [whole, readRules.eq_def]
  simp only [nothing]
  change Reading.mk (rules ++ []) _ = _
  rw [List.append_nil]
  rfl

/-- An at-rule with a block, when the block is read as the rule. -/
theorem written_atBlock {name prelude contents : String} {form : List Node → Prop} {rule : Rule} (hn : IsAtName name)
    (hp : IsPhrase prelude) (hc : Written contents.toList WordEnd form)
    (read : ∀ stop ns opener inner closer, textOf ns = prelude → form inner →
      readAtBlock stop name 1 ns (.block (.bracket .curly) opener inner (some closer)) = ⟨[rule], []⟩) :
    Written (compactAtRule name prelude ++ compactBlock contents).toList Anywhere (ReadsRules [rule]) := by
  have whole := (written_atRule hn hp).append (written_curly hc) fun rest _ => wordEnd_compactBlock contents rest
  rw [String.toList_append]
  refine whole.mono (fun _ hr => hr) ?_
  rintro nodes ⟨ms, _, rfl, head, opener, inner, closer, rfl, known⟩
  have curly : (Node.block (.bracket .curly) opener inner (some closer)).isCurly = true := rfl
  obtain ⟨ns, text, step⟩ := readRules_atBlock hn.2 head curly
  intro nested stop rest
  rw [List.append_assoc, List.singleton_append, step, read stop ns opener inner closer text known]

theorem written_group {name prelude contents : String} {rules : List Rule} (hn : IsAtName name)
    (hg : name ∈ groupNames) (hp : IsPhrase prelude) (hc : Written contents.toList Anywhere (ReadsRules rules)) :
    Written (compactAtRule name prelude ++ compactBlock contents).toList Anywhere
      (ReadsRules [.group 1 name prelude rules]) := by
  refine written_atBlock hn hp (hc.mono (fun _ _ => trivial) fun _ known => known) ?_
  intro stop ns opener inner closer text known
  have kind : BlockKind.ofName name = .rules := if_pos hg
  have body : readRules true (stop.ofCloser (some closer)) .nothing inner = ⟨rules, []⟩ := known.all (.inl rfl)
  rw [readAtBlock]
  simp only [kind, body, text]
  rfl

theorem written_frames {frames : List StyleRule} (h : ∀ frame ∈ frames, frame.Canonical) :
    Written (String.join (frames.map StyleRule.compact)).toList Anywhere
      (ReadsRules (frames.map fun frame => .style (frame.onLine 1))) := by
  induction frames with
  | nil =>
      refine ⟨[], rfl, fun _ _ => trivial, fun ts carries => ⟨[], ?_, ?_⟩⟩
      · rw [carries.nil]
        exact .nil
      · exact fun nested stop rest => rfl
  | cons frame frames ih =>
      have whole := (written_styleRule (h frame (by simp))).append (ih fun f hf => h f (by simp [hf])) fun _ _ => trivial
      rw [List.map_cons, String.join_cons, String.toList_append]
      exact whole.mono (fun _ hr => hr) fun nodes both => ReadsRules.append both

theorem not_mem_groupNames {name : String} (h : "keyframes".toList <:+ name.toList) : name ∉ groupNames := by
  have none : ∀ group ∈ groupNames, ¬ "keyframes".toList <:+ group.toList := by decide
  exact fun mem => none name mem h

theorem written_keyframes {keyword name : String} {frames : List StyleRule} (hk : IsAtName keyword)
    (hs : "keyframes".toList <:+ keyword.toList) (hn : IsPhrase name) (hf : ∀ frame ∈ frames, frame.Canonical) :
    Written (compactAtRule keyword name ++ compactBlock (String.join (frames.map StyleRule.compact))).toList Anywhere
      (ReadsRules [.keyframes 1 keyword name (frames.map (StyleRule.onLine 1))]) := by
  refine written_atBlock hk hn ((written_frames hf).mono (fun _ _ => trivial) fun _ known => known) ?_
  intro stop ns opener inner closer text known
  have kind : BlockKind.ofName keyword = .keyframes := by
    rw [BlockKind.ofName, if_neg (not_mem_groupNames hs), if_pos hs]
  have body : readRules true (stop.ofCloser (some closer)) .nothing inner = ⟨_, []⟩ := known.all (.inl rfl)
  have styles : (frames.map fun frame => Rule.style (frame.onLine 1)).filterMap Rule.style? =
      frames.map (StyleRule.onLine 1) := by
    rw [List.filterMap_map]
    exact congrFun (List.filterMap_eq_map (f := StyleRule.onLine 1)) frames
  rw [readAtBlock]
  simp only [kind, body, text, styles]
  rfl

theorem written_descriptors {name prelude : String} {ds : List Declaration} (hn : IsAtName name)
    (hg : name ∉ groupNames) (hk : ¬ "keyframes".toList <:+ name.toList) (hp : IsPhrase prelude)
    (hd : ∀ d ∈ ds, d.Canonical) :
    Written (compactAtRule name prelude ++ compactBlock (compactDeclarations ds)).toList Anywhere
      (ReadsRules [.descriptors 1 name prelude (ds.map (Declaration.onLine 1))]) := by
  refine written_atBlock hn hp (written_declarations hd) ?_
  intro stop ns opener inner closer text known
  have kind : BlockKind.ofName name = .declarations := by rw [BlockKind.ofName, if_neg hg, if_neg hk]
  rw [readAtBlock]
  simp only [kind, known (stop.ofCloser (some closer)), text]
  rfl

/-! At-rules without a block. -/

/-- The nodes of an at-rule with a semicolon at its end, whose prelude stands for the rule. -/
def IsStatement (name : String) (rule : Nat → Rule) (nodes : List Node) : Prop :=
  ∃ t ns u, nodes = .leaf t :: (ns ++ [.leaf u]) ∧ t.kind = .atKeyword name ∧ t.line = 1 ∧ (∀ n ∈ ns, InPrelude n) ∧
    u.kind = .semicolon ∧ ∀ line, atRuleWithoutBlock name line ns.reverse = rule line

/-- An at-rule is read up to its semicolon. -/
theorem IsStatement.readsRules {name : String} {rule : Nat → Rule} {nodes : List Node} (h : IsStatement name rule nodes)
    (hn : name.toLower = name) : ReadsRules [rule 1] nodes := by
  obtain ⟨t, ns, u, rfl, kind, line, inside, semicolon, known⟩ := h
  have keyword : (Node.leaf t).kind? = some (.atKeyword name) := by rw [Node.kind?, kind]
  have first : (Node.leaf t).line = 1 := line
  have last : (Node.leaf u).kind? = some .semicolon := by rw [Node.kind?, semicolon]
  have curly : (Node.leaf u).isCurly = false := rfl
  intro nested stop rest
  rw [List.cons_append, List.append_assoc, List.singleton_append, readRules.eq_def]
  simp only [keyword, hn, first]
  rw [readRules_prelude inside, List.append_nil, readRules.eq_def]
  simp only [curly, last, Bool.false_eq_true, if_false, if_true, known]
  rfl

theorem written_semicolon : Written [';'] Anywhere (Leaves [Piece.mark .semicolon ';']) :=
  written_mark rfl ⟨rfl, by simp⟩

theorem written_statement {name prelude : String} (hn : IsAtName name) (hc : name ≠ "charset") (hi : name ≠ "import")
    (hp : IsPhrase prelude) :
    Written (compactAtRule name prelude ++ ";").toList Anywhere (IsStatement name (.statement · name prelude)) := by
  have whole := (written_atRule hn hp).append written_semicolon fun rest _ => StopsAt.cons (by decide)
  rw [String.toList_append]
  refine whole.mono (fun _ hr => hr) ?_
  rintro nodes ⟨_, _, rfl, ⟨_, ns, rfl, ⟨ts, carries, rfl⟩, inside, text, -⟩, us, carries', rfl⟩
  obtain ⟨t, none, rfl, kind, -, line, carries⟩ := carries.cons
  obtain rfl := carries.nil
  obtain ⟨u, none, rfl, kind', -, -, carries'⟩ := carries'.cons
  obtain rfl := carries'.nil
  refine ⟨t, ns, u, by simp, by simpa [Piece.atWord] using kind, line, inside, kind', fun line => ?_⟩
  rw [atRuleWithoutBlock]
  simp only [hc, hi, if_false, text]

theorem written_charset {encoding : String} (he : IsAddress encoding) :
    Written ("@charset \"" ++ encoding ++ "\";").toList Anywhere (IsStatement "charset" (.charset · encoding)) := by
  have front : Written (spelling [Piece.atWord "charset".toList, Piece.space, Piece.quoted encoding.toList]) Anywhere
      (Leaves [Piece.atWord "charset".toList, Piece.space, Piece.quoted encoding.toList]) := by
    refine .leaves ?_ fun rest _ => ⟨ReadBefore.atWord (by decide) (StopsAt.cons (by decide)),
      ReadBefore.space (StopsAt.cons (by decide)), ReadBefore.quoted he _, trivial⟩
    simp [Piece.atWord, Piece.space, Piece.mark, Piece.quoted, TokenKind.IsLeaf, TokenKind.opens?]
  have whole := front.append written_semicolon fun _ _ => trivial
  have text : ("@charset \"" ++ encoding ++ "\";").toList =
      spelling [Piece.atWord "charset".toList, Piece.space, Piece.quoted encoding.toList] ++ [';'] := by
    simp [spelling, Piece.atWord, Piece.space, Piece.mark, Piece.quoted]
  rw [text]
  refine whole.mono (fun _ hr => hr) ?_
  rintro nodes ⟨_, _, rfl, ⟨ts, carries, rfl⟩, us, carries', rfl⟩
  obtain ⟨t, none, rfl, kind, -, line, carries⟩ := carries.cons
  obtain ⟨w, none, rfl, white, -, -, carries⟩ := carries.cons
  obtain ⟨q, none, rfl, value, -, -, carries⟩ := carries.cons
  obtain rfl := carries.nil
  obtain ⟨u, none, rfl, kind', -, -, carries'⟩ := carries'.cons
  obtain rfl := carries'.nil
  refine ⟨t, [.leaf w, .leaf q], u, rfl, kind, line, ?_, kind', fun line => ?_⟩
  · simp [InPrelude, Node.isCurly, Node.kind?, white, value, Piece.space, Piece.mark, Piece.quoted]
  · simp [atRuleWithoutBlock, ComponentValue.ofNodes, ComponentValue.ofNode, white, value, Piece.space, Piece.mark,
      Piece.quoted]
    rfl

theorem toLower_charset : "charset".toLower = "charset" := Selector.toLower_eq_self_of_all (by decide)

theorem toLower_import : "import".toLower = "import" := Selector.toLower_eq_self_of_all (by decide)

/-- An address in quotes within the brackets of a function. -/
theorem written_url {url : String} (hu : IsAddress url) :
    Written ("url(".toList ++ (('"' :: (url.toList ++ ['"'])) ++ [')'])) Anywhere
      (Enclosed (.function "url") (Leaves [Piece.quoted url.toList])) := by
  have address : Written (spelling [Piece.quoted url.toList]) Anywhere (Leaves [Piece.quoted url.toList]) :=
    .leaves (by simp [Piece.quoted, TokenKind.IsLeaf, TokenKind.opens?]) fun rest _ => ⟨ReadBefore.quoted hu _, trivial⟩
  have spelled : spelling [Piece.quoted url.toList] = '"' :: (url.toList ++ ['"']) := by simp [spelling, Piece.quoted]
  rw [spelled] at address
  have opening : Piece.urlOpening.kind.opens? = some (.function "url") := rfl
  have closing : (Piece.mark (.closing .paren) ')').kind = .closing (Opening.closes (.function "url")) := rfl
  exact address.block opening closing (fun rest => ReadBefore.urlOpening _) (fun _ => trivial)
    fun _ => ReadBefore.mark rfl _

theorem written_imported {url media : String} (hu : IsAddress url) (hm : IsPhrase media) :
    Written ("@import url(\"" ++ url ++ "\")" ++ spacedPrelude media ++ ";").toList Anywhere
      (IsStatement "import" (.imported · url media)) := by
  obtain ⟨words, plain, rfl⟩ := hm
  have front : Written (spelling [Piece.atWord "import".toList, Piece.space]) (StopsAt isSpace)
      (Leaves [Piece.atWord "import".toList, Piece.space]) := by
    refine .leaves ?_ fun rest hr => ⟨ReadBefore.atWord (by decide) (StopsAt.cons (by decide)), ReadBefore.space hr, trivial⟩
    simp [Piece.atWord, Piece.space, Piece.mark, TokenKind.IsLeaf, TokenKind.opens?]
  have back := (written_prelude plain).append written_semicolon fun rest _ => StopsAt.cons (by decide)
  have whole := front.append ((written_url hu).append back fun _ _ => trivial) fun rest _ => StopsAt.cons (by decide)
  have text : ("@import url(\"" ++ url ++ "\")" ++ spacedPrelude (" ".intercalate words) ++ ";").toList =
      spelling [Piece.atWord "import".toList, Piece.space] ++ (("url(".toList ++ (('"' :: (url.toList ++ ['"'])) ++ [')'])) ++
        ((spacedPrelude (" ".intercalate words)).toList ++ [';'])) := by
    simp [spelling, Piece.atWord, Piece.space, Piece.mark]
  rw [text]
  refine whole.mono (fun _ hr => hr) ?_
  rintro nodes ⟨_, _, rfl, ⟨ts, carries, rfl⟩, _, _, rfl, ⟨opener, inner, closer, rfl, qs, quoted, rfl⟩,
    ns, _, rfl, ⟨inside, -, spaced⟩, us, carries', rfl⟩
  obtain ⟨t, none, rfl, kind, -, line, carries⟩ := carries.cons
  obtain ⟨w, none, rfl, white, -, -, carries⟩ := carries.cons
  obtain rfl := carries.nil
  obtain ⟨q, none, rfl, value, -, -, quoted⟩ := quoted.cons
  obtain rfl := quoted.nil
  obtain ⟨u, none, rfl, kind', -, -, carries'⟩ := carries'.cons
  obtain rfl := carries'.nil
  let block : Node := .block (.function "url") opener [.leaf q] (some closer)
  refine ⟨t, .leaf w :: block :: ns, u, by simp [block], kind, line, ?_, kind', fun line => ?_⟩
  · refine List.forall_mem_cons.mpr ⟨?_, List.forall_mem_cons.mpr ⟨?_, inside⟩⟩
    · simp [InPrelude, Node.isCurly, Node.kind?, white, Piece.space, Piece.mark]
    · simp [block, InPrelude, Node.isCurly, Node.kind?]
  · have name : "url".toLower = "url" := Selector.toLower_eq_self_of_all (by decide)
    have address : ComponentValue.address? (.block (.function "url") [.token (.string url)]) = some url := by
      rw [ComponentValue.address?, if_pos name]
      rfl
    -- the spaces in front of the words were left out once before the words were joined
    have media : ComponentValue.spaced ((ComponentValue.ofNodes ns).filter (!·.isWhitespace)) =
        " ".intercalate words := by
      rw [← spaced, ComponentValue.spaced, ComponentValue.spaced, List.filter_filter]
      simp only [Bool.and_self]
    have values : ComponentValue.ofNodes (Node.leaf w :: block :: ns) = .token .whitespace ::
        .block (.function "url") [.token (.string url)] :: ComponentValue.ofNodes ns := by
      simp [block, ComponentValue.ofNodes, ComponentValue.ofNode, white, value, Piece.space, Piece.mark, Piece.quoted]
    have different : "import" ≠ "charset" := by decide
    rw [atRuleWithoutBlock, List.reverse_reverse, values]
    simp only [if_neg different, if_true]
    rw [List.filter_cons_of_neg (by simp [ComponentValue.isWhitespace]),
      List.filter_cons_of_pos (by simp [ComponentValue.isWhitespace])]
    simp only [address, media, Option.getD_some]

/-! Whole style sheets. -/

mutual
/-- The compact text of a rule is read as the rule, in whatever group it stands. -/
theorem Rule.written : (r : Rule) → r.Canonical → Written r.compact.toList Anywhere (ReadsRules [r.onLine 1])
  | .style _, h => written_styleRule h
  | .group _ _ _ rules, ⟨name, known, prelude, inner⟩ => written_group name known prelude (Rule.allWritten rules inner)
  | .keyframes _ _ _ _, ⟨keyword, suffix, name, frames⟩ => written_keyframes keyword suffix name frames
  | .charset _ _, h => (written_charset h).mono (fun _ hr => hr) fun _ nodes => nodes.readsRules toLower_charset
  | .imported _ _ _, ⟨url, media⟩ => (written_imported url media).mono (fun _ hr => hr) fun _ nodes => nodes.readsRules toLower_import
  | .descriptors _ _ _ _, ⟨name, known, suffix, prelude, ds⟩ => written_descriptors name known suffix prelude ds
  | .statement _ _ _, ⟨name, encoding, import_, prelude⟩ =>
    (written_statement name encoding import_ prelude).mono (fun _ hr => hr) fun _ nodes => nodes.readsRules name.2

theorem Rule.allWritten : (rules : List Rule) → AllCanonical rules →
    Written (compactList rules).toList Anywhere (ReadsRules (allOnLine 1 rules))
  | [], _ => by
      refine ⟨[], rfl, fun _ _ => trivial, fun ts carries => ⟨[], ?_, fun nested stop rest => rfl⟩⟩
      rw [carries.nil]
      exact .nil
  | r :: rest, ⟨first, later⟩ => by
      have whole := (Rule.written r first).append (Rule.allWritten rest later) fun _ _ => trivial
      rw [compactList, String.toList_append]
      exact whole.mono (fun _ hr => hr) fun nodes both => ReadsRules.append both
end

theorem normalize_inline {text : List Char} (h : ∀ c ∈ text, isInline c = true) : normalize text = text := by
  induction text with
  | nil => rfl
  | cons c text ih =>
      have first := h c (by simp)
      simp only [isInline, Bool.and_eq_true, bne_iff_ne, ne_eq] at first
      obtain ⟨⟨⟨_, return_⟩, feed⟩, null⟩ := first
      rw [normalize.eq_def]
      split
      · next e => cases e
      · next e =>
          obtain ⟨rfl, -⟩ := List.cons.inj e
          exact absurd rfl return_
      · next e =>
          obtain ⟨rfl, rfl⟩ := List.cons.inj e
          simp [return_, feed, null, ih fun d hd => h d (by simp [hd])]

theorem Apart.inline {pieces : List Piece} {rest : List Char} (h : Apart pieces rest) :
    ∀ c ∈ spelling pieces, isInline c = true := by
  induction pieces with
  | nil => simp [spelling]
  | cons p pieces ih =>
      rw [spelling_cons]
      exact List.forall_mem_append.mpr ⟨h.1.inline, ih h.2⟩

/-- Reading the compact text of a style sheet of plain words gives the rules of the style sheet, and no issues. -/
theorem ofText_compact {sheet : Stylesheet} (h : Rule.AllCanonical sheet.rules) :
    Stylesheet.ofText sheet.compact = ⟨Rule.allOnLine 1 sheet.rules, []⟩ := by
  obtain ⟨pieces, spelled, apart, nests⟩ := Rule.allWritten sheet.rules h
  have whole := apart [] trivial
  have start : Place.line {} = 1 := rfl
  obtain ⟨ts, stop, read, carries, kinds⟩ := tokensFrom_apart whole start
  obtain ⟨nodes, nested, reads⟩ := nests ts carries
  have source : tokenize sheet.compact = ts ++ [⟨.endOfSource, stop, []⟩] := by
    rw [tokenize, Stylesheet.compact, ← spelled, normalize_inline whole.inline, tokens, read]
  have front : (ts ++ [(⟨.endOfSource, stop, []⟩ : Token)]).takeWhile (·.kind ≠ .endOfSource) = ts := by
    rw [List.takeWhile_append_of_pos fun t ht => by simpa using kinds t ht]
    simp
  rw [Stylesheet.ofText, source, Stylesheet.ofTokens, front, ofTokens_nests nested]
  simp only [reads.all (.inr rfl)]

/-- An import, and a marked and an empty declaration within a group. -/
theorem ofText_compact_group :
    let style : StyleRule := ⟨3, ["a .b", "#c"],
      [⟨"color", [.token (.ident "red")], "red", true, 4⟩, ⟨"margin", [], "", false, 5⟩]⟩
    Stylesheet.ofText (Stylesheet.compact ⟨[.imported 1 "a.css" "print", .group 2 "media" "" [.style style]], []⟩) =
      ⟨[.imported 1 "a.css" "print", .group 1 "media" "" [.style (style.onLine 1)]], []⟩ := by
  have red : Declaration.Canonical ⟨"color", [.token (.ident "red")], "red", true, 4⟩ :=
    ⟨by decide, ["red"], by decide, by simp, rfl⟩
  have margin : Declaration.Canonical ⟨"margin", [], "", false, 5⟩ := ⟨by decide, [], by simp, by simp, rfl⟩
  have classes : IsSelector "a .b" := by
    refine ⟨["a", ".b"], by simp, ?_, by decide⟩
    exact List.forall_mem_cons.mpr ⟨.inl rfl, by simpa using .inr ⟨['b'], rfl, .inl rfl⟩⟩
  have id : IsSelector "#c" := ⟨["#c"], by simp, by simpa using .inr ⟨['c'], rfl, .inr rfl⟩, by decide⟩
  have style : StyleRule.Canonical ⟨3, ["a .b", "#c"], [⟨"color", [.token (.ident "red")], "red", true, 4⟩,
      ⟨"margin", [], "", false, 5⟩]⟩ := by
    refine ⟨by simp, ?_, ?_⟩
    · exact List.forall_mem_cons.mpr ⟨classes, by simpa using id⟩
    · exact List.forall_mem_cons.mpr ⟨red, by simpa using margin⟩
  have media : IsPhrase "print" := ⟨["print"], by decide, by decide⟩
  have nothing : IsPhrase "" := ⟨[], by simp, by simp⟩
  have name : IsAtName "media" := ⟨by decide, Selector.toLower_eq_self_of_all (by decide)⟩
  have address : ∀ c ∈ "a.css".toList, isQuotable c = true := List.all_eq_true.mp (by decide)
  exact ofText_compact ⟨⟨address, media⟩, ⟨name, by decide, nothing, style, trivial⟩, trivial⟩

end StyleAudit.Css
