/-!
What a scanner gives back: the value it read, and from how many characters of its text.
-/
namespace StyleAudit.Text

/-- A value and the number of characters it was read from. What is left to read is the text without that many of
its first characters. -/
structure Scan (α : Type) where
  value : α
  size : Nat
  deriving DecidableEq, Repr

namespace Scan

/-- The value changed, the characters kept. -/
def map {α β : Type} (f : α → β) (s : Scan α) : Scan β := ⟨f s.value, s.size⟩

/-- The value changed, with that many characters more in front. -/
def behind {α β : Type} (n : Nat) (f : α → β) (s : Scan α) : Scan β := ⟨f s.value, n + s.size⟩

@[simp] theorem map_size {α β : Type} (f : α → β) (s : Scan α) : (s.map f).size = s.size := rfl
@[simp] theorem map_value {α β : Type} (f : α → β) (s : Scan α) : (s.map f).value = f s.value := rfl
@[simp] theorem behind_size {α β : Type} (n : Nat) (f : α → β) (s : Scan α) :
    (s.behind n f).size = n + s.size := rfl
@[simp] theorem behind_value {α β : Type} (n : Nat) (f : α → β) (s : Scan α) :
    (s.behind n f).value = f s.value := rfl

end Scan
end StyleAudit.Text
