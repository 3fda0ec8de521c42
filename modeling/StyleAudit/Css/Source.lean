/-!
Style sheet source: the form in which line ends are all alike, and places in it.
-/
namespace StyleAudit.Css

/-- A source in which every line ends in a line feed and no null character is left. -/
def normalize : List Char → List Char
  | [] => []
  | '\r' :: '\n' :: rest => '\n' :: normalize rest
  | c :: rest =>
    (if c = '\r' ∨ c = '\x0c' then '\n' else if c = '\x00' then '\uFFFD' else c) :: normalize rest

/-- A place in a source: how many characters stand before it, and the line it is on. -/
structure Place where
  offset : Nat := 0
  line : Nat := 1
  deriving DecidableEq, Repr, Inhabited

/-- The place behind a text that starts at the given one. -/
def Place.after (p : Place) (text : List Char) : Place :=
  ⟨p.offset + text.length, p.line + text.count '\n'⟩

@[simp] theorem Place.after_nil (p : Place) : p.after [] = p := rfl

theorem Place.after_append (p : Place) (s t : List Char) : p.after (s ++ t) = (p.after s).after t := by
  simp [Place.after, Nat.add_assoc]

end StyleAudit.Css
