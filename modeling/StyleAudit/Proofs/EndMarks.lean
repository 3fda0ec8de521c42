import Mathlib.Data.List.Forall2
import StyleAudit.Proofs.CursorReading
/-!
Tokens without an end mark. The end of a source is where no token is left, whether a mark stands there or not: the same
is read, and the same is reported. Only what is reported at the end is on another line where the mark is missing, that of
the last token.
-/
namespace StyleAudit.Css

/-- The same defect on the same line, or at the end, which is on the first line here and on the second line there. -/
structure Issue.SameButEnd (here there : Nat) (i j : Issue) : Prop where
  defect : i.defect = j.defect
  line : i.line = j.line ∨ i.line = here ∧ j.line = there

/-- The same was read and the same was reported, but for the line of the end. -/
structure Reading.SameButEnd {α : Type} (here there : Nat) (r s : Reading α) : Prop where
  items : r.items = s.items
  issues : List.Forall₂ (Issue.SameButEnd here there) r.issues s.issues

section
variable {here there : Nat}

theorem Issue.SameButEnd.messages {issues issues' : List Issue}
    (h : List.Forall₂ (Issue.SameButEnd here there) issues issues') :
    issues.map Issue.message = issues'.map Issue.message := by
  induction h with
  | nil => rfl
  | cons same _ ih => rw [List.map_cons, List.map_cons, ih, Issue.message, Issue.message, same.defect]

namespace Reading.SameButEnd
variable {α β : Type} {r s r' s' : Reading α}

theorem refl (r : Reading α) : SameButEnd here there r r := ⟨rfl, List.forall₂_same.mpr fun _ _ => ⟨rfl, .inl rfl⟩⟩

theorem append (h : SameButEnd here there r s) (h' : SameButEnd here there r' s') :
    SameButEnd here there (r ++ r') (s ++ s') where
  items := by rw [items_append, items_append, h.items, h'.items]
  issues := List.rel_append h.issues h'.issues

theorem discard (h : SameButEnd here there r s) : SameButEnd (α := β) here there r.discard s.discard := ⟨rfl, h.issues⟩

theorem atEnd (defect : Defect) : SameButEnd (α := α) here there (.issue defect here) (.issue defect there) :=
  ⟨rfl, .cons ⟨rfl, .inr ⟨rfl, rfl⟩⟩ .nil⟩

end Reading.SameButEnd

open Reading (SameButEnd)

/-! What is added at the end, and node by node. -/

theorem endOfRules_end (nested : Bool) :
    SameButEnd here there (endOfRules nested ⟨false, here⟩) (endOfRules nested ⟨false, there⟩) := by
  cases nested with
  | false => exact .refl _
  | true => exact .atEnd _

theorem ruleEnd_end (nested : Bool) (pending : PendingRule) :
    SameButEnd here there (ruleEnd nested ⟨false, here⟩ pending) (ruleEnd nested ⟨false, there⟩ pending) := by
  cases pending with
  | nothing => exact endOfRules_end nested
  | style line nodes => exact (SameButEnd.atEnd _).append (endOfRules_end nested)
  | atRule name line prelude => exact (SameButEnd.refl _).append (endOfRules_end nested)

theorem declarationEnd_end (pending : PendingDeclaration) :
    SameButEnd here there (declarationEnd ⟨false, here⟩ pending) (declarationEnd ⟨false, there⟩ pending) := by
  cases pending with
  | colon name line => exact .atEnd _
  | nothing | skipped | atRule name line nodes | value name line nodes => exact .refl _

/-- The blocks that the node stands for add the same, but for the line of the end. -/
structure BlockSameButEnd (here there : Nat) (n : Node) : Prop where
  style : ∀ line nodes, SameButEnd here there (readStyleBlock ⟨false, here⟩ line nodes n)
    (readStyleBlock ⟨false, there⟩ line nodes n)
  atRule : ∀ name line nodes, SameButEnd here there (readAtBlock ⟨false, here⟩ name line nodes n)
    (readAtBlock ⟨false, there⟩ name line nodes n)

theorem strayBrace_end (rest : List Node) :
    SameButEnd (α := Rule) here there (.issue .strayBrace (Ending.next ⟨false, here⟩ rest))
      (.issue .strayBrace (Ending.next ⟨false, there⟩ rest)) := by
  cases rest with
  | nil => exact .atEnd _
  | cons n rest => exact .refl _

theorem ruleStep_end {n : Node} (blocks : BlockSameButEnd here there n) (nested : Bool) (rest : List Node)
    (pending : PendingRule) :
    SameButEnd here there (ruleStep nested ⟨false, here⟩ (Ending.next ⟨false, here⟩ rest) pending n).1
        (ruleStep nested ⟨false, there⟩ (Ending.next ⟨false, there⟩ rest) pending n).1 ∧
      (ruleStep nested ⟨false, here⟩ (Ending.next ⟨false, here⟩ rest) pending n).2 =
        (ruleStep nested ⟨false, there⟩ (Ending.next ⟨false, there⟩ rest) pending n).2 := by
  cases pending with
  | nothing =>
      simp only [ruleStep]
      split
      · exact ⟨.refl _, rfl⟩
      · exact ⟨.refl _, rfl⟩
      · split
        · exact ⟨blocks.style n.line [], rfl⟩
        · split
          · exact ⟨strayBrace_end rest, rfl⟩
          · split <;> exact ⟨.refl _, rfl⟩
  | style line nodes =>
      simp only [ruleStep]
      split
      · exact ⟨blocks.style line nodes, rfl⟩
      · exact ⟨.refl _, rfl⟩
  | atRule name line nodes =>
      simp only [ruleStep]
      split
      · exact ⟨blocks.atRule name line nodes, rfl⟩
      · split <;> exact ⟨.refl _, rfl⟩

theorem declarationStep_end {n : Node} (blocks : BlockSameButEnd here there n) (pending : PendingDeclaration) :
    SameButEnd here there (declarationStep ⟨false, here⟩ pending n).1 (declarationStep ⟨false, there⟩ pending n).1 ∧
      (declarationStep ⟨false, here⟩ pending n).2 = (declarationStep ⟨false, there⟩ pending n).2 := by
  cases pending with
  | atRule name line nodes =>
      simp only [declarationStep]
      split
      · exact ⟨(blocks.atRule name line nodes).discard, rfl⟩
      · split <;> exact ⟨.refl _, rfl⟩
  | nothing | colon name line | value name line nodes | skipped => exact ⟨.refl _, rfl⟩

mutual
theorem readRules_end (nested : Bool) : ∀ (pending : PendingRule) (nodes : List Node),
    SameButEnd here there (readRules nested ⟨false, here⟩ pending nodes) (readRules nested ⟨false, there⟩ pending nodes)
  | pending, [] => by
      rw [readRules_nil, readRules_nil]
      exact ruleEnd_end nested pending
  | pending, n :: rest => by
      obtain ⟨added, waiting⟩ := ruleStep_end (block_end n) nested rest pending
      rw [readRules_cons, readRules_cons, waiting]
      exact added.append (readRules_end nested _ rest)

theorem readDeclarations_end : ∀ (pending : PendingDeclaration) (nodes : List Node),
    SameButEnd here there (readDeclarations ⟨false, here⟩ pending nodes) (readDeclarations ⟨false, there⟩ pending nodes)
  | pending, [] => by
      rw [readDeclarations_nil, readDeclarations_nil]
      exact declarationEnd_end pending
  | pending, n :: rest => by
      obtain ⟨added, waiting⟩ := declarationStep_end (block_end n) pending
      rw [readDeclarations_cons, readDeclarations_cons, waiting]
      exact added.append (readDeclarations_end _ rest)

/-- A block with a closing token ends there, and one without it ends where the source does. -/
theorem block_end : ∀ n : Node, BlockSameButEnd here there n
  | .leaf _ => ⟨fun _ _ => .refl _, fun _ _ _ => .refl _⟩
  | .block _ _ _ (some _) => ⟨fun _ _ => .refl _, fun _ _ _ => .refl _⟩
  | .block opening opener contents none => by
      have declarations := readDeclarations_end .nothing contents
      have rules := readRules_end true .nothing contents
      constructor
      · intro line nodes
        simp only [readStyleBlock, Ending.ofCloser, declarations.items]
        exact ((SameButEnd.refl _).append declarations.discard).append (.refl _)
      · intro name line nodes
        simp only [readAtBlock, Ending.ofCloser]
        cases BlockKind.ofName name with
        | rules =>
            simp only [rules.items]
            exact rules.discard.append (.refl _)
        | keyframes =>
            simp only [rules.items]
            exact rules.discard.append (.refl _)
        | declarations =>
            simp only [declarations.items]
            exact (declarations.discard.append (.atEnd _)).append (.refl _)
end

end

/-! Tokens with and without the mark. -/

/-- The first style sheet is read from tokens without their end mark, the second from the same tokens with it: the rules
are the same, and so are the issues, but for the line of those at the end. -/
structure Stylesheet.SameButEnd (here there : Nat) (s t : Stylesheet) : Prop where
  rules : s.rules = t.rules
  issues : List.Forall₂ (Issue.SameButEnd here there) s.issues t.issues
  messages : s.issues.map Issue.message = t.issues.map Issue.message

section
variable {body : List Token} (inside : ∀ t ∈ body, t.kind ≠ .endOfSource) {last : Token}
  (mark : last.kind = .endOfSource)
include inside

theorem takeWhile_body : body.takeWhile (·.kind ≠ .endOfSource) = body :=
  List.takeWhile_eq_self_iff.mpr fun t ht => decide_eq_true (inside t ht)

include mark

theorem takeWhile_marked : (body ++ [last]).takeWhile (·.kind ≠ .endOfSource) = body := by
  rw [List.takeWhile_append_of_pos fun t ht => decide_eq_true (inside t ht),
    List.takeWhile_cons_of_neg (by simpa using mark), List.append_nil]

theorem ofTokens_sameButEnd :
    (Stylesheet.ofTokens body).SameButEnd (Stylesheet.endLine body) (Stylesheet.endLine (body ++ [last]))
      (Stylesheet.ofTokens (body ++ [last])) := by
  have read : Reading.SameButEnd (Stylesheet.endLine body) (Stylesheet.endLine (body ++ [last])) _ _ :=
    readRules_end false .nothing (Node.ofTokens body)
  simp only [Stylesheet.ofTokens, takeWhile_body inside, takeWhile_marked inside mark]
  exact ⟨read.items, read.issues, Issue.SameButEnd.messages read.issues⟩

end

/-- The tokens of a source end in a mark. Without it they are read as they are with it, rule by rule and declaration by
declaration, and that also by a cursor, which runs off the tokens where it would else stand at the mark. -/
theorem ofTokens_withoutMark (css : String) :
    ∃ body last, tokenize css = body ++ [last] ∧ last.kind = .endOfSource ∧ (∀ t ∈ body, t.kind ≠ .endOfSource) ∧
      (Stylesheet.ofTokens body).SameButEnd (Stylesheet.endLine body) (Stylesheet.endLine (tokenize css))
        (Stylesheet.ofTokens (tokenize css)) ∧
      ∃ bound, ∀ fuel, bound ≤ fuel →
        Routine.stylesheet ⟨normalize css.toList, body⟩ fuel = .ok (Stylesheet.ofTokens body, body.length) ∧
          Routine.stylesheet ⟨normalize css.toList, tokenize css⟩ fuel =
            .ok (Stylesheet.ofTokens (tokenize css), body.length) := by
  obtain ⟨body, last, whole, mark, inside⟩ : ∃ body last, tokenize css = body ++ [last] ∧ last.kind = .endOfSource ∧
      ∀ t ∈ body, t.kind ≠ .endOfSource := by
    obtain ⟨body, whole, inside⟩ := (tokensFrom_laid {} (normalize css.toList)).finish
    exact ⟨body, _, whole, rfl, fun t ht => (inside t ht).1⟩
  have read := ofTokens_sameButEnd inside mark
  have cut := takeWhile_marked inside mark
  have part : ∀ t ∈ body, t ∈ tokenize css := fun t ht => whole ▸ List.mem_append_left _ ht
  rw [← whole] at read cut
  obtain ⟨bound, unmarked⟩ := Routine.stylesheet_ahead (Routine.spelled_part part)
  obtain ⟨bound', marked⟩ := Routine.stylesheet_ahead (Routine.spelled_part fun t ht => ht)
  refine ⟨body, last, whole, mark, inside, read, max bound bound', fun fuel enough => ⟨?_, ?_⟩⟩
  · rw [unmarked fuel (by omega), takeWhile_body inside]
  · rw [marked fuel (by omega), cut]

end StyleAudit.Css
