/-!
Edits of a text: ranges of characters and what takes their place.
-/
namespace StyleAudit.Selector

/-- The `size` characters from `start` on give way to `replacement`. -/
structure Edit where
  start : Nat
  size : Nat
  replacement : List Char
  deriving DecidableEq, Repr

namespace Edit

def stop (e : Edit) : Nat := e.start + e.size

def matched (text : List Char) (e : Edit) : List Char := (text.drop e.start).take e.size

/-- The text from `position` on after edits, which are in the order of their ranges. -/
def applyFrom (position : Nat) (text : List Char) : List Edit → List Char
  | [] => text
  | e :: rest =>
    text.take (e.start - position) ++ e.replacement ++ applyFrom e.stop (text.drop (e.stop - position)) rest

def applyAll (text : List Char) (edits : List Edit) : List Char := applyFrom 0 text edits

@[simp] theorem applyAll_nil (text : List Char) : applyAll text [] = text := rfl

end Edit

/-- What a rule does at one place: it replaces that many characters. A rule sees the character before the place and the
text from there on. -/
abbrev LocalRule := Option Char → List Char → Option (Nat × List Char)

/-- The edits of a local rule from left to right. After an edit it goes on behind the range; `skip` counts the characters
of the range that are still to pass. -/
def LocalRule.editsFrom (rule : LocalRule) (skip position : Nat) (previous : Option Char) : List Char → List Edit
  | [] => []
  | c :: rest =>
    match skip with
    | more + 1 => rule.editsFrom more (position + 1) (some c) rest
    | 0 =>
      match rule previous (c :: rest) with
      | none => rule.editsFrom 0 (position + 1) (some c) rest
      | some (size, replacement) =>
        ⟨position, size, replacement⟩ :: rule.editsFrom (size - 1) (position + 1) (some c) rest

def LocalRule.edits (rule : LocalRule) (text : List Char) : List Edit := rule.editsFrom 0 0 none text

end StyleAudit.Selector
