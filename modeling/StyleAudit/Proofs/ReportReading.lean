import StyleAudit.Proofs.Buckets
import StyleAudit.Report.Section
/-!
Reading a report line by line. A count begins a part, and what an entry shows is read with the remark and the head that
were shown last.
-/
namespace StyleAudit.Report

/-! Reading the lines of a report. -/

/-- What a line shows of a finding. -/
inductive Item where
  /-- A text in a listing, with the remark and the head that it stands under. -/
  | listed (remark head text : String)
  /-- The reason for what is listed above it. -/
  | reason (text : String)
  /-- A use of a class name that begins with a short word, with the remark that it stands under. -/
  | hit (remark token : String) (line : Nat)
  deriving DecidableEq

/-- What the next lines stand under: the remark and the head that were shown last. -/
structure Heading where
  remark : String := ""
  head : String := ""

namespace Heading

/-- The heading behind a line. -/
def behind (h : Heading) : Line → Heading
  | .plain text => if text = "" then h else { h with remark := text }
  | .entry head true _ => { h with head }
  | _ => h

def item? (h : Heading) : Line → Option Item
  | .entry head isFirst text => some (.listed h.remark (if isFirst then head else h.head) text)
  | .setOff _ _ text _ => some (.reason text)
  | .hit token line => some (.hit h.remark token line)
  | .plain _ | .count .. => none

/-- What lines show that stand under the heading. -/
def items (h : Heading) : List Line → List Item
  | [] => []
  | l :: rest => (h.item? l).toList ++ (h.behind l).items rest

theorem items_append (h : Heading) (front rest : List Line) :
    h.items (front ++ rest) = h.items front ++ (front.foldl behind h).items rest := by
  induction front generalizing h with
  | nil => rfl
  | cons l front ih => rw [List.cons_append, items, items, ih, List.foldl_cons, List.append_assoc]

end Heading

/-- A count, and the lines up to the next one. -/
structure Part where
  label : String
  number : Nat
  lines : List Line

def Part.items (p : Part) : List Item := Heading.items {} p.lines

def Line.isCount : Line → Bool
  | .count .. => true
  | _ => false

/-- The lines begin no part and, whatever stands in front of them, show the items. -/
structure Shows (ls : List Line) (items : List Item) : Prop where
  plain : ∀ l ∈ ls, l.isCount = false
  shown : ∀ h : Heading, h.items ls = items

/-- The lines begin no part and, behind the remark, show the items and make no other remark. -/
structure ShowsUnder (remark : String) (ls : List Line) (items : List Item) : Prop where
  plain : ∀ l ∈ ls, l.isCount = false
  shown : ∀ head, Heading.items ⟨remark, head⟩ ls = items
  kept : ∀ head, ∃ next, ls.foldl Heading.behind ⟨remark, head⟩ = ⟨remark, next⟩

namespace Shows

theorem nil : Shows [] [] := ⟨nofun, fun _ => rfl⟩

theorem plainLine (text : String) : Shows [.plain text] [] :=
  ⟨List.forall_mem_singleton.mpr rfl, fun _ => rfl⟩

theorem empty : Shows [.empty] [] := plainLine ""

theorem append {ls ms : List Line} {items more : List Item} (h : Shows ls items) (h' : Shows ms more) :
    Shows (ls ++ ms) (items ++ more) where
  plain := List.forall_mem_append.mpr ⟨h.plain, h'.plain⟩
  shown heading := by rw [Heading.items_append, h.shown, h'.shown]

theorem flatMap {α : Type} {f : α → List Line} {g : α → List Item} {as : List α} (h : ∀ a ∈ as, Shows (f a) (g a)) :
    Shows (as.flatMap f) (as.flatMap g) := by
  induction as with
  | nil => exact nil
  | cons a rest ih =>
      obtain ⟨first, others⟩ := List.forall_mem_cons.mp h
      exact first.append (ih others)

end Shows

namespace ShowsUnder

variable {remark : String} {ls ms : List Line} {items more : List Item}

theorem nil : ShowsUnder remark [] [] := ⟨nofun, fun _ => rfl, fun head => ⟨head, rfl⟩⟩

theorem append (h : ShowsUnder remark ls items) (h' : ShowsUnder remark ms more) :
    ShowsUnder remark (ls ++ ms) (items ++ more) where
  plain := List.forall_mem_append.mpr ⟨h.plain, h'.plain⟩
  shown head := by
    obtain ⟨next, behind⟩ := h.kept head
    rw [Heading.items_append, h.shown, behind, h'.shown]
  kept head := by
    obtain ⟨next, behind⟩ := h.kept head
    rw [List.foldl_append, behind]
    exact h'.kept next

theorem flatMap {α : Type} {f : α → List Line} {g : α → List Item} {as : List α}
    (h : ∀ a ∈ as, ShowsUnder remark (f a) (g a)) : ShowsUnder remark (as.flatMap f) (as.flatMap g) := by
  induction as with
  | nil => exact nil
  | cons a rest ih =>
      obtain ⟨first, others⟩ := List.forall_mem_cons.mp h
      exact first.append (ih others)

/-- What is shown of buckets is shown of each of their entries. -/
theorem buckets {κ α : Type} {print : κ × List α → List Line} {item : κ × α → List Item}
    (h : ∀ key entries, ShowsUnder remark (print (key, entries)) (entries.flatMap fun e => item (key, e)))
    (buckets : List (κ × List α)) : ShowsUnder remark (buckets.flatMap print) ((ungrouped buckets).flatMap item) := by
  rw [flatMap_ungrouped]
  exact flatMap fun b _ => h b.1 b.2

/-- Lines behind a text that is the remark. -/
theorem behind {text : String} (some : text ≠ "") (h : ShowsUnder text ls items) : Shows (.plain text :: ls) items where
  plain := List.forall_mem_cons.mpr ⟨rfl, h.plain⟩
  shown heading := by
    rw [Heading.items, Heading.behind, if_neg some]
    exact h.shown heading.head

theorem paragraph {text : String} (h : ShowsUnder ("      " ++ text) ls items) :
    Shows (Report.paragraph text ++ ls) items := by
  have some : "      " ++ text ≠ "" := by
    intro none
    have length := congrArg String.length none
    rw [String.length_append] at length
    exact absurd (Nat.eq_zero_of_add_eq_zero_right length) (by decide)
  have inner : ShowsUnder ("      " ++ text) (Line.empty :: ls) items :=
    ⟨List.forall_mem_cons.mpr ⟨rfl, h.plain⟩, h.shown, h.kept⟩
  exact Shows.empty.append (inner.behind some)

end ShowsUnder

/-- What is shown of a selector that could not be mended. -/
def failureItems (remark head : String) (f : Failure) : List Item :=
  [.listed remark head (f.before ++ "\t(cleanup)=> " ++ f.after), .reason f.reason]

end StyleAudit.Report
