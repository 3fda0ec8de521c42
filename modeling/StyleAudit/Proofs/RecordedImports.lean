import StyleAudit.Proofs.SheetSelectors
/-!
Imports of a style sheet. An audit records one address for each line on which something is imported, that of the import
that is last there; so of several imports that share a line, as in a sheet without line ends, all but one are lost.
-/
namespace StyleAudit

open Css (Rule Stylesheet)

theorem getLast?_filterMap_eq_some {α β : Type} {f : α → Option β} {l : List α} {b : β} :
    (l.filterMap f).getLast? = some b ↔
      ∃ front a back, l = front ++ a :: back ∧ f a = some b ∧ ∀ x ∈ back, f x = none := by
  rw [List.getLast?_filterMap, List.findSome?_eq_some_iff]
  constructor
  · rintro ⟨back, a, front, same, found, others⟩
    refine ⟨front.reverse, a, back.reverse, ?_, found, fun x mem => others x (List.mem_reverse.mp mem)⟩
    rw [← List.reverse_reverse l, same]
    simp
  · rintro ⟨front, a, back, rfl, found, others⟩
    exact ⟨back.reverse, a, front.reverse, by simp, found, fun x mem => others x (List.mem_reverse.mp mem)⟩

/-! Notes on imports. -/

/-- The rule is an import that starts on the line. -/
def Css.Rule.ImportsOn (line : Nat) (rule : Rule) : Prop := ∃ url media, rule = .imported line url media

/-- The address that an import on the line has. -/
def importOn? (line : Nat) : Rule → Option String
  | .imported l url _ => if l = line then some url else none
  | _ => none

theorem importOn?_eq_some {line : Nat} {rule : Rule} {url : String} :
    importOn? line rule = some url ↔ ∃ media, rule = .imported line url media := by
  cases rule with
  | imported l url' media =>
      rw [importOn?]
      constructor
      · intro found
        split at found
        · next same => exact ⟨media, by rw [same, Option.some.inj found]⟩
        · cases found
      · rintro ⟨_, same⟩
        obtain ⟨rfl, rfl, -⟩ := Rule.imported.inj same
        exact if_pos rfl
  | style | group | keyframes | charset | descriptors | statement => exact ⟨nofun, nofun⟩

theorem importOn?_eq_none {line : Nat} {rule : Rule} : importOn? line rule = none ↔ ¬ rule.ImportsOn line := by
  constructor
  · rintro none ⟨url, media, same⟩
    rw [importOn?_eq_some.mpr ⟨media, same⟩] at none
    cases none
  · intro other
    refine Option.eq_none_iff_forall_ne_some.mpr fun url found => other ?_
    obtain ⟨media, same⟩ := importOn?_eq_some.mp found
    exact ⟨url, media, same⟩

theorem ofStyleRule_imports (scope : String) (r : Css.StyleRule) :
    (Note.ofStyleRule scope r).filterMap Note.imported? = [] := by
  rw [Note.ofStyleRule, List.filterMap_map]
  exact List.filterMap_eq_nil_iff.mpr fun _ _ => rfl

mutual
theorem ofGroupedRule_imports (line : Nat) (scope : String) (r : Rule) :
    (Note.ofGroupedRule line scope r).filterMap Note.imported? = [] := by
  cases r with
  | style r => rw [Note.ofGroupedRule, ofStyleRule_imports]
  | group line name prelude rules =>
      rw [Note.ofGroupedRule]
      exact ofGroupedRules_imports line (groupScope name prelude) rules
  | descriptors line name _ ds => rw [Note.ofGroupedRule, ofDescriptors_view (fun _ _ => rfl) (fun _ _ => rfl)]
  | keyframes | charset | imported | statement =>
      rw [Note.ofGroupedRule]
      rfl

/-- No import is noted in a group. -/
theorem ofGroupedRules_imports (line : Nat) (scope : String) (rules : List Rule) :
    (Note.ofGroupedRules line scope rules).filterMap Note.imported? = [] := by
  cases rules with
  | nil =>
      rw [Note.ofGroupedRules]
      rfl
  | cons r rest =>
      rw [Note.ofGroupedRules, List.filterMap_append, ofGroupedRule_imports line scope r,
        ofGroupedRules_imports line scope rest, List.append_nil]
end

theorem entriesOf_ofRule (line : Nat) (r : Rule) :
    entriesOf line ((Note.ofRule r).filterMap Note.imported?) = (importOn? line r).toList := by
  cases r with
  | imported l url media =>
      rw [Note.ofRule, importOn?]
      by_cases same : l = line <;> simp [Note.imported?, entriesOf, same]
  | style r =>
      rw [Note.ofRule, ofStyleRule_imports]
      rfl
  | group line' name prelude rules =>
      rw [Note.ofRule, ofGroupedRules_imports]
      rfl
  | descriptors line' name _ ds =>
      rw [Note.ofRule, ofDescriptors_view (fun _ _ => rfl) (fun _ _ => rfl)]
      rfl
  | keyframes | charset | statement =>
      rw [Note.ofRule]
      rfl

/-- The addresses noted for a line are those of the imports that start on it. -/
theorem entriesOf_ofRules (line : Nat) (rules : List Rule) :
    entriesOf line ((Note.ofRules rules).filterMap Note.imported?) = rules.filterMap (importOn? line) := by
  induction rules with
  | nil => rfl
  | cons r rest ih =>
      rw [Note.ofRules, List.flatMap_cons, ← Note.ofRules, List.filterMap_append, entriesOf_append, ih,
        entriesOf_ofRule, List.filterMap_cons]
      cases importOn? line r <;> rfl

/-- An audit records, for each line on which the style sheet imports something, the address of the last import that
starts there, and nothing else. So an import is recorded unless another one follows it on its line, and no line on which
something is imported is left out. -/
theorem ofBytes_imports (v : Vocabulary) (path : String) (bytes : List UInt8) (a : SheetAudit)
    (h : SheetAudit.ofBytes v path bytes = .ok a) :
    let rules := (Stylesheet.ofText (String.ofList (Text.ofUtf8 bytes))).rules
    (∀ line url, (line, url) ∈ a.importsByLine ↔
      ∃ front media back, rules = front ++ .imported line url media :: back ∧ ∀ rule ∈ back, ¬ rule.ImportsOn line) ∧
      (a.importsByLine.Pairwise fun p q => p.1 < q.1) ∧
      ∀ line, (∃ rule ∈ rules, rule.ImportsOn line) → ∃ url, (line, url) ∈ a.importsByLine := by
  intro rules
  have noted (line : Nat) : entriesOf line (a.notes.filterMap Note.imported?) = rules.filterMap (importOn? line) := by
    rw [(ofBytes_form h).1, entriesOf_ofRules]
  refine ⟨fun line url => ?_, ordered_latest _, ?_⟩
  · rw [SheetAudit.importsByLine, mem_latest_iff, noted, getLast?_filterMap_eq_some]
    constructor
    · rintro ⟨front, rule, back, same, found, others⟩
      obtain ⟨media, rfl⟩ := importOn?_eq_some.mp found
      exact ⟨front, media, back, same, fun other mem => importOn?_eq_none.mp (others other mem)⟩
    · rintro ⟨front, media, back, same, others⟩
      exact ⟨front, _, back, same, importOn?_eq_some.mpr ⟨media, rfl⟩,
        fun other mem => importOn?_eq_none.mpr (others other mem)⟩
  · rintro line ⟨rule, mem, url, media, rfl⟩
    have some : url ∈ rules.filterMap (importOn? line) :=
      List.mem_filterMap.mpr ⟨_, mem, importOn?_eq_some.mpr ⟨media, rfl⟩⟩
    refine ⟨(rules.filterMap (importOn? line)).getLast (List.ne_nil_of_mem some), mem_latest_iff.mpr ?_⟩
    rw [noted]
    exact List.getLast?_eq_some_getLast _

/-- Two imports on one line and one on the next. -/
theorem ofBytes_imports_two : ∃ a,
    SheetAudit.ofBytes ⟨[], [], []⟩ "/x.css" (Text.toUtf8 "@import'a';@import'b';\n@import'c'") = .ok a ∧
      (1, "b") ∈ a.importsByLine ∧ (2, "c") ∈ a.importsByLine := by
  have source : String.ofList (Text.ofUtf8 (Text.toUtf8 "@import'a';@import'b';\n@import'c'")) =
      "@import'a';@import'b';\n@import'c'" := by decide +kernel
  have tokens : Css.tokenize "@import'a';@import'b';\n@import'c'" =
      [⟨.atKeyword "import", ⟨0, 1⟩, "@import".toList⟩, ⟨.string "a", ⟨7, 1⟩, "'a'".toList⟩,
        ⟨.semicolon, ⟨10, 1⟩, [';']⟩, ⟨.atKeyword "import", ⟨11, 1⟩, "@import".toList⟩,
        ⟨.string "b", ⟨18, 1⟩, "'b'".toList⟩, ⟨.semicolon, ⟨21, 1⟩, [';']⟩, ⟨.whitespace, ⟨22, 1⟩, ['\n']⟩,
        ⟨.atKeyword "import", ⟨23, 2⟩, "@import".toList⟩, ⟨.string "c", ⟨30, 2⟩, "'c'".toList⟩,
        ⟨.endOfSource, ⟨33, 2⟩, []⟩] := by decide +kernel
  have rules : (Stylesheet.ofText "@import'a';@import'b';\n@import'c'").rules =
      [.imported 1 "a" "", .imported 1 "b" "", .imported 2 "c" ""] := by
    rw [Stylesheet.ofText, tokens]
    cbv
  have audited : ∃ a, SheetAudit.ofBytes ⟨[], [], []⟩ "/x.css" (Text.toUtf8 "@import'a';@import'b';\n@import'c'") =
      .ok a := by
    rw [SheetAudit.ofBytes, source, rules]
    exact ⟨_, rfl⟩
  obtain ⟨a, audited⟩ := audited
  obtain ⟨recorded, -, -⟩ := ofBytes_imports _ _ _ a audited
  rw [source, rules] at recorded
  refine ⟨a, audited, (recorded 1 "b").mpr ⟨[.imported 1 "a" ""], "", [.imported 2 "c" ""], rfl, ?_⟩,
    (recorded 2 "c").mpr ⟨[.imported 1 "a" "", .imported 1 "b" ""], "", [], rfl, List.forall_mem_nil _⟩⟩
  intro rule mem
  obtain rfl := List.mem_singleton.mp mem
  rintro ⟨url, media, same⟩
  cases same

/-- The first of two imports on one line is lost. -/
theorem ofBytes_imports_lost : ∃ a,
    SheetAudit.ofBytes ⟨[], [], []⟩ "/site.css" (Text.toUtf8 "@import \"a.css\";@import \"b.css\";") = .ok a ∧
      Rule.imported 1 "a.css" "" ∈ (Stylesheet.ofText (String.ofList (Text.ofUtf8 (Text.toUtf8
        "@import \"a.css\";@import \"b.css\";")))).rules ∧
      (1, "a.css") ∉ a.importsByLine := by
  have source : String.ofList (Text.ofUtf8 (Text.toUtf8 "@import \"a.css\";@import \"b.css\";")) =
      "@import \"a.css\";@import \"b.css\";" := by decide +kernel
  have tokens : Css.tokenize "@import \"a.css\";@import \"b.css\";" =
      [⟨.atKeyword "import", ⟨0, 1⟩, "@import".toList⟩, ⟨.whitespace, ⟨7, 1⟩, [' ']⟩,
        ⟨.string "a.css", ⟨8, 1⟩, "\"a.css\"".toList⟩, ⟨.semicolon, ⟨15, 1⟩, [';']⟩,
        ⟨.atKeyword "import", ⟨16, 1⟩, "@import".toList⟩, ⟨.whitespace, ⟨23, 1⟩, [' ']⟩,
        ⟨.string "b.css", ⟨24, 1⟩, "\"b.css\"".toList⟩, ⟨.semicolon, ⟨31, 1⟩, [';']⟩,
        ⟨.endOfSource, ⟨32, 1⟩, []⟩] := by decide +kernel
  have rules : (Stylesheet.ofText "@import \"a.css\";@import \"b.css\";").rules =
      [.imported 1 "a.css" "", .imported 1 "b.css" ""] := by
    rw [Stylesheet.ofText, tokens]
    cbv
  rw [SheetAudit.ofBytes, source, rules]
  exact ⟨_, rfl, List.mem_cons_self, by decide⟩

end StyleAudit
