import StyleAudit.Proofs.Outlines
/-!
One thing in an outline exchanged for another. Where both begin alike and may stand in the same places, all that is around
them is read as before: the rules and declarations, what is reported, and the tokens.
-/
namespace StyleAudit.Css

open Node (listTokens listTokens_append)

/-! Nodes that begin alike. -/

/-- Nodes that begin alike, as far as anything in front of them is concerned. -/
def BeginAlike (ns ms : List Node) : Prop :=
  (ns.head?.map fun n => (n.kind?, n.first)) = ms.head?.map fun n => (n.kind?, n.first)

namespace BeginAlike
variable {ns ms : List Node}

theorem eq_nil (h : BeginAlike ns ms) (none : ns = []) : ms = [] := by
  subst none
  exact List.head?_eq_none_iff.mp (Option.map_eq_none_iff.mp h.symm)

theorem kind (h : BeginAlike ns ms) {kind : TokenKind} (all : ∀ n ∈ ns.head?, n.kind? = some kind) :
    ∀ n ∈ ms.head?, n.kind? = some kind := by
  intro m hm
  have first : (ms.head?.map fun n => (n.kind?, n.first)) = some (m.kind?, m.first) := by rw [hm, Option.map_some]
  obtain ⟨n, hn, same⟩ := Option.map_eq_some_iff.mp (h.trans first)
  have kinds : n.kind? = m.kind? := congrArg Prod.fst same
  rw [← kinds]
  exact all n hn

theorem next (h : BeginAlike ns ms) (stop : Ending) : stop.next ns = stop.next ms := by
  have lines := congrArg (Option.map fun p : Option TokenKind × Token => p.2.line) h
  rw [Option.map_map, Option.map_map] at lines
  cases ns with
  | nil => rw [h.eq_nil rfl]
  | cons n ns =>
      cases ms with
      | nil => cases lines
      | cons m ms => exact Option.some.inj lines

/-- What stands behind nodes does not matter. -/
theorem append (h : BeginAlike ns ms) (some : ns ≠ []) (rest rest' : List Node) : BeginAlike (ns ++ rest) (ms ++ rest') := by
  have some' : ms ≠ [] := fun none => some (eq_nil h.symm none)
  rwa [BeginAlike, List.head?_append_of_ne_nil _ some, List.head?_append_of_ne_nil _ some']

theorem behind (h : BeginAlike ns ms) (front : List Node) : BeginAlike (front ++ ns) (front ++ ms) := by
  cases front with
  | nil => exact h
  | cons n front => rfl

end BeginAlike

namespace Clause

theorem fits_alike {level : Level} {ns ms : List Node} (h : BeginAlike ns ms) : ∀ c : Clause, c.Fits level ns → c.Fits level ms
  | .idle _, fit => fit
  | .stray _, fit => fit
  | .style .., fit => fit
  | .bare .., fit => ⟨fit.1, fit.2.1, h.eq_nil fit.2.2⟩
  | .block .., fit => fit
  | .statement .., fit => ⟨fit.1, fit.2.1, fit.2.2.1, fun none => h.eq_nil (fit.2.2.2 none)⟩
  | .declaration .., ⟨level, kind, white, colon, blank, visible, ends⟩ =>
      ⟨level, kind, white, colon, blank, visible, ends.1, h.kind ends.2⟩
  | .noColon .., ⟨level, kind, white, other, ends⟩ => ⟨level, kind, white, other, ends.1, h.kind ends.2⟩
  | .unexpected .., ⟨level, begins, ends⟩ => ⟨level, begins, ends.1, h.kind ends.2⟩

/-! What an exchange keeps. -/

/-- Outlines one of which may stand for the other, whatever is around them. -/
structure Exchange (cs cs' : List Clause) : Prop where
  alike : BeginAlike (listNodes cs) (listNodes cs')
  fits : ∀ level, AllFit level cs → AllFit level cs'
  nested : ∀ around last, Node.AreNested around last (listNodes cs) → Node.AreNested around last (listNodes cs')
  issues : ∀ stop, listIssues stop cs' = listIssues stop cs

theorem Exchange.first {c c' : Clause} (alike : BeginAlike c.nodes c'.nodes)
    (fits : ∀ level behind, c.Fits level behind → c'.Fits level behind)
    (nested : ∀ around last behind, Node.AreNested around last (c.nodes ++ behind) →
      Node.AreNested around last (c'.nodes ++ behind))
    (issues : ∀ stop next, c'.issues stop next = c.issues stop next) (rest : List Clause) :
    Exchange (c :: rest) (c' :: rest) where
  alike := alike.append c.nodes_ne_nil _ _
  fits level fit := ⟨fits level _ fit.1, fit.2⟩
  nested around last := nested around last (listNodes rest)
  issues stop := by rw [listIssues, listIssues, issues]

theorem Exchange.cons {cs cs' : List Clause} (h : Exchange cs cs') (c : Clause) : Exchange (c :: cs) (c :: cs') where
  alike := h.alike.behind c.nodes
  fits level fit := ⟨fits_alike h.alike c fit.1, h.fits level fit.2⟩
  nested around last nested := by
    rw [listNodes, Node.areNested_append] at nested ⊢
    have empty : (listNodes cs').isEmpty = (listNodes cs).isEmpty := by
      rw [Bool.eq_iff_iff, List.isEmpty_iff, List.isEmpty_iff]
      exact ⟨fun none => BeginAlike.eq_nil h.alike.symm none, h.alike.eq_nil⟩
    rw [empty]
    exact ⟨nested.1, h.nested around last nested.2⟩
  issues stop := by rw [listIssues, listIssues, h.issues, h.alike.next]

theorem Exchange.behind {cs cs' : List Clause} (h : Exchange cs cs') (front : List Clause) :
    Exchange (front ++ cs) (front ++ cs') := by
  induction front with
  | nil => exact h
  | cons c front ih => exact ih.cons c

end Clause

/-! Rules with a block. -/

/-- A rule without what is in its block. -/
inductive Shell where
  | style (head : List Node) (opener : Token) (closer : Option Token)
  | block (keyword : Token) (word : String) (prelude : List Node) (opener : Token) (closer : Option Token)

namespace Shell

def clause (body : List Clause) : Shell → Clause
  | style head opener closer => .style head opener body closer
  | block keyword word prelude opener closer => .block keyword word prelude opener body closer

/-- The nodes in front of the block. -/
def front : Shell → List Node
  | style head .. => head
  | block keyword _ prelude .. => .leaf keyword :: prelude

def opener : Shell → Token
  | style _ opener _ | block _ _ _ opener _ => opener

def closer : Shell → Option Token
  | style _ _ closer | block _ _ _ _ closer => closer

/-- What the block is read for. -/
def level : Shell → Level
  | style .. => .declarations
  | block _ word .. => .ofName word.toLower

theorem nodes_clause (s : Shell) (body : List Clause) :
    (s.clause body).nodes = s.front ++ [.block (.bracket .curly) s.opener (Clause.listNodes body) s.closer] := by
  cases s <;> rfl

theorem fits_body {s : Shell} {body : List Clause} {level : Level} {behind : List Node}
    (h : (s.clause body).Fits level behind) : Clause.AllFit s.level body := by
  cases s with
  | style => exact h.2.2
  | block => exact h.2.2

theorem fits_exchanged {s : Shell} {body body' : List Clause} {level : Level} {behind : List Node}
    (h : (s.clause body).Fits level behind) (inside : Clause.AllFit s.level body') : (s.clause body').Fits level behind := by
  cases s with
  | style => exact ⟨h.1, h.2.1, inside⟩
  | block => exact ⟨h.1, h.2.1, inside⟩

theorem exchange {body body' : List Clause} (h : Clause.Exchange body body') (s : Shell) (rest : List Clause) :
    Clause.Exchange (s.clause body :: rest) (s.clause body' :: rest) where
  alike := by
    rw [Clause.listNodes, Clause.listNodes]
    refine BeginAlike.append ?_ (s.clause body).nodes_ne_nil _ _
    have block : BeginAlike [.block (.bracket .curly) s.opener (Clause.listNodes body) s.closer]
      [.block (.bracket .curly) s.opener (Clause.listNodes body') s.closer] := rfl
    rw [nodes_clause, nodes_clause]
    exact block.behind s.front
  fits level fit := ⟨fits_exchanged fit.1 (h.fits _ (fits_body fit.1)), fit.2⟩
  nested around last nested := by
    rw [Clause.listNodes, nodes_clause, List.append_assoc, Node.areNested_append] at nested ⊢
    obtain ⟨front, ⟨opens, inside, closes⟩, behind⟩ := nested
    exact ⟨front, ⟨opens, h.nested _ _ inside, closes⟩, behind⟩
  issues stop := by
    cases s <;> simp only [Clause.listIssues, clause, Clause.issues, h.issues]

end Shell

/-! Outlines with a gap. -/

/-- An outline without one thing in it. -/
inductive Frame where
  | here (before behind : List Clause)
  | inside (before : List Clause) (shell : Shell) (inner : Frame) (behind : List Clause)

namespace Frame

def fill (c : Clause) : Frame → List Clause
  | here before behind => before ++ c :: behind
  | inside before shell inner behind => before ++ shell.clause (inner.fill c) :: behind

/-- More around an outline. -/
def within (front rest : List Clause) : Frame → Frame
  | here before behind => here (front ++ before) (behind ++ rest)
  | inside before shell inner behind => inside (front ++ before) shell inner (behind ++ rest)

theorem fill_within (c : Clause) (front rest : List Clause) (f : Frame) :
    (f.within front rest).fill c = front ++ (f.fill c ++ rest) := by
  cases f <;> simp [within, fill]

theorem exchange {c c' : Clause} (h : ∀ rest, Clause.Exchange (c :: rest) (c' :: rest)) (f : Frame) :
    Clause.Exchange (f.fill c) (f.fill c') := by
  induction f with
  | here before behind => exact (h behind).behind before
  | inside before shell inner behind ih => exact (shell.exchange ih behind).behind before

/-- The tokens around what is exchanged stay. -/
theorem tokens (f : Frame) : ∃ front behind, ∀ c, listTokens (Clause.listNodes (f.fill c)) =
    front ++ (listTokens c.nodes ++ behind) := by
  have split (before rest : List Clause) (c : Clause) : listTokens (Clause.listNodes (before ++ c :: rest)) =
      listTokens (Clause.listNodes before) ++ (listTokens c.nodes ++ listTokens (Clause.listNodes rest)) := by
    rw [Clause.listNodes_append, Clause.listNodes, listTokens_append, listTokens_append]
  induction f with
  | here before behind => exact ⟨_, _, split before behind⟩
  | inside before shell inner behind ih =>
      obtain ⟨front, rest, same⟩ := ih
      refine ⟨listTokens (Clause.listNodes before) ++ (listTokens shell.front ++ shell.opener :: front),
        rest ++ (shell.closer.toList ++ listTokens (Clause.listNodes behind)), fun c => ?_⟩
      rw [fill, split, shell.nodes_clause, listTokens_append, listTokens, Node.tokens, same c]
      simp [listTokens]

end Frame
end StyleAudit.Css
