import Mathlib.Data.List.Basic
import StyleAudit.Selector.Grammar
/-!
What the grammar accepts, function by function: one form for each way through a function, with all that was read on the
way.
-/
namespace StyleAudit.Selector

open Text (Scan)

theorem map_eq_ok {α β ε : Type} {f : α → β} {e : Except ε α} {b : β} (h : e.map f = .ok b) :
    ∃ a, e = .ok a ∧ f a = b := by
  cases e with
  | error _ => cases h
  | ok a => exact ⟨a, rfl, Except.ok.inj h⟩

theorem bind_eq_ok {α β ε : Type} {e : Except ε α} {f : α → Except ε β} {b : β} (h : (e >>= f) = .ok b) :
    ∃ a, e = .ok a ∧ f a = .ok b := by
  cases e with
  | error _ => cases h
  | ok a => exact ⟨a, rfl, h⟩

/-- What is behind so many characters of a text without its first one. -/
theorem drop_cons_add (c : Char) (rest : List Char) (n : Nat) : (c :: rest).drop (1 + n) = rest.drop n := by
  rw [Nat.add_comm, List.drop_succ_cons]

/-- A pseudo, read behind its first colon. -/
inductive PseudoForm (pos : Nat) : List Char → Scan Pseudo → Prop
  | element {rest : List Char} {name : Scan String} {simple : Simple} : ident .pseudo (pos + 1) rest = .ok name →
      pseudoElement (pos + (1 + name.size)) name.value (rest.drop name.size) = .ok simple →
      PseudoForm pos (':' :: rest) ⟨.simple simple, 1 + name.size⟩
  | negation {text rest : List Char} {name : Scan String} {size : Nat} : ident .pseudo pos text = .ok name →
      text.drop name.size = '(' :: rest → argumentSize 0 none rest = some size → name.value.toLower = "not" →
      PseudoForm pos text ⟨.negation (name.size + 1) size, name.size + 1 + size + 1⟩
  | function {text rest : List Char} {name : Scan String} {size : Nat} {simple : Simple} :
      ident .pseudo pos text = .ok name → text.drop name.size = '(' :: rest → argumentSize 0 none rest = some size →
      name.value.toLower ≠ "not" →
      pseudoFunction (pos + (name.size + 1)) (pos + (name.size + 1) + size + 1) name.value (rest.take size) = .ok simple →
      PseudoForm pos text ⟨.simple simple, name.size + 1 + size + 1⟩
  | plain {text : List Char} {name : Scan String} {simple : Simple} : ident .pseudo pos text = .ok name →
      (text.drop name.size).head? ≠ some '(' → plainPseudoClass (pos + name.size) name.value = .ok simple →
      PseudoForm pos text ⟨.simple simple, name.size⟩

theorem pseudo_form {pos : Nat} {text : List Char} {s : Scan Pseudo} (h : pseudo pos text = .ok s) :
    PseudoForm pos text s := by
  unfold pseudo at h
  split at h
  · next rest =>
      obtain ⟨name, found, h⟩ := bind_eq_ok h
      obtain ⟨simple, element, h⟩ := bind_eq_ok h
      obtain rfl := Except.ok.inj h
      rw [Nat.add_comm 1 name.size, List.drop_succ_cons, Nat.add_comm name.size] at element
      exact .element found element
  · obtain ⟨name, found, h⟩ := bind_eq_ok h
    split at h
    · next rest opening =>
        dsimp only at h
        split at h
        · cases h
        · next size closing =>
            split at h
            · next not =>
                obtain rfl := Except.ok.inj h
                exact .negation found opening closing not
            · next other =>
                obtain ⟨simple, function, h⟩ := bind_eq_ok h
                obtain rfl := Except.ok.inj h
                exact .function found opening closing other function
    · next closed =>
        obtain ⟨simple, plain, h⟩ := bind_eq_ok h
        obtain rfl := Except.ok.inj h
        refine .plain found (fun opening => ?_) plain
        obtain ⟨rest, start⟩ := List.head?_eq_some_iff.mp opening
        exact closed rest start

/-- The characters with which a simple selector other than a type selector begins. -/
def beginsSimple (c : Char) : Bool := c == ':' || c == '.' || c == '#' || c == '&' || c == '['

/-- Simple selectors, and the scan of what stands behind the first of them. -/
inductive SimplesForm (pos : Nat) : List Char → Scan Compound → Prop
  | stop {text : List Char} : startsIdent text = false →
      (∀ c, text.head? = some c → beginsSimple c = false ∧ c ≠ '*') → SimplesForm pos text ⟨[], 0⟩
  | pseudo {rest : List Char} {simple : Simple} {n : Nat} {more : Scan Compound} :
      pseudo (pos + 1) rest = .ok ⟨.simple simple, n⟩ → simples (pos + (1 + n)) (rest.drop n) = .ok more →
      SimplesForm pos (':' :: rest) (more.behind (1 + n) (simple :: ·))
  | negation {rest : List Char} {simple : Simple} {start size n : Nat} {more : Scan Compound} :
      pseudo (pos + 1) rest = .ok ⟨.negation start size, n⟩ →
      negated (pos + 1 + start) ((rest.drop start).take size) = .ok simple →
      simples (pos + (1 + n)) (rest.drop n) = .ok more →
      SimplesForm pos (':' :: rest) (more.behind (1 + n) (.negation simple :: ·))
  | className {rest : List Char} {name : Scan String} {more : Scan Compound} :
      ident .className (pos + 1) rest = .ok name → simples (pos + (1 + name.size)) (rest.drop name.size) = .ok more →
      SimplesForm pos ('.' :: rest) (more.behind (1 + name.size) (.className name.value :: ·))
  | id {rest : List Char} {word : Scan String} {more : Scan Compound} :
      name .id (pos + 1) rest = .ok word → simples (pos + (1 + word.size)) (rest.drop word.size) = .ok more →
      SimplesForm pos ('#' :: rest) (more.behind (1 + word.size) (.id word.value :: ·))
  | nesting {rest : List Char} {more : Scan Compound} : simples (pos + 1) rest = .ok more →
      SimplesForm pos ('&' :: rest) (more.behind 1 (.nesting :: ·))
  | hasAttribute {rest : List Char} {test : Scan Simple} {more : Scan Compound} :
      attributeSelector (pos + 1) rest = .ok test → simples (pos + (1 + test.size)) (rest.drop test.size) = .ok more →
      SimplesForm pos ('[' :: rest) (more.behind (1 + test.size) (test.value :: ·))

/-- What is read behind a mark other than a colon. -/
theorem marked_form {c : Char} {rest : List Char} {pos n : Nat} {simple : Simple} {more : Scan Compound}
    (mark : c = '.' ∨ c = '#' ∨ c = '&' ∨ c = '[')
    (piece : (if c = '.' then (ident .className (pos + 1) rest).map (Scan.map Simple.className)
      else if c = '#' then (name .id (pos + 1) rest).map (Scan.map Simple.id)
      else if c = '&' then .ok ⟨.nesting, 0⟩
      else attributeSelector (pos + 1) rest) = .ok ⟨simple, n⟩)
    (tail : simples (pos + (1 + n)) (rest.drop n) = .ok more) :
    SimplesForm pos (c :: rest) (more.behind (1 + n) (simple :: ·)) := by
  rcases mark with rfl | rfl | rfl | rfl
  · rw [if_pos rfl] at piece
    obtain ⟨name, found, same⟩ := map_eq_ok piece
    obtain ⟨rfl, rfl⟩ := Scan.mk.inj same
    exact .className found tail
  · rw [if_neg (by decide), if_pos rfl] at piece
    obtain ⟨name, found, same⟩ := map_eq_ok piece
    obtain ⟨rfl, rfl⟩ := Scan.mk.inj same
    exact .id found tail
  · rw [if_neg (by decide), if_neg (by decide), if_pos rfl] at piece
    obtain ⟨rfl, rfl⟩ := Scan.mk.inj (Except.ok.inj piece)
    exact .nesting tail
  · rw [if_neg (by decide), if_neg (by decide), if_neg (by decide)] at piece
    exact .hasAttribute piece tail

theorem simples_form {pos : Nat} {text : List Char} {s : Scan Compound} (h : simples pos text = .ok s) :
    SimplesForm pos text s := by
  rw [simples.eq_def] at h
  cases text with
  | nil =>
      obtain rfl := Except.ok.inj h
      exact .stop rfl fun c hc => by cases hc
  | cons c rest =>
      dsimp only at h
      by_cases colon : c = ':'
      · subst colon
        rw [if_pos rfl] at h
        split at h
        · cases h
        · next read =>
            obtain ⟨more, tail, rfl⟩ := map_eq_ok h
            exact .pseudo read tail
        · next read =>
            split at h
            · cases h
            · next inner =>
                obtain ⟨more, tail, rfl⟩ := map_eq_ok h
                exact .negation read inner tail
      · rw [if_neg colon] at h
        by_cases star : c = '*'
        · rw [if_pos star] at h
          cases h
        · rw [if_neg star] at h
          cases starts : startsIdent (c :: rest) with
          | true =>
              rw [starts, if_pos rfl] at h
              cases h
          | false =>
              rw [starts, if_neg Bool.false_ne_true] at h
              split at h
              · next mark =>
                  split at h
                  · cases h
                  · next simple n piece =>
                      obtain ⟨more, tail, rfl⟩ := map_eq_ok h
                      exact marked_form mark piece tail
              · next other =>
                  obtain rfl := Except.ok.inj h
                  refine .stop starts fun d hd => ?_
                  obtain rfl := Option.some.inj hd
                  simp only [not_or] at other
                  simp [beginsSimple, colon, star, other]

theorem compound_form {pos : Nat} {text : List Char} {s : Scan Compound} (h : compound pos text = .ok s) :
    ∃ start more, typeSelector pos text = .ok start ∧ simples (pos + start.size) (text.drop start.size) = .ok more ∧
      start.value ++ more.value ≠ [] ∧ s = ⟨start.value ++ more.value, start.size + more.size⟩ := by
  rw [compound.eq_def] at h
  split at h
  · cases h
  · next start =>
      split at h
      · cases h
      · next more =>
          split at h
          · split at h <;> cases h
          · next some =>
              obtain rfl := Except.ok.inj h
              exact ⟨_, _, start, more, some, rfl⟩

theorem single_form {pos : Nat} {parts : Compound} {simple : Simple} (h : single pos parts = .ok simple) :
    parts = [simple] ∧ (∀ a, simple ≠ .negation a) ∧ ∀ element, simple ≠ .pseudoElement element := by
  unfold single at h
  split at h
  · cases h
  · cases h
  · next other negation element =>
      obtain rfl := Except.ok.inj h
      exact ⟨rfl, negation, element⟩
  · cases h

theorem negated_form {pos : Nat} {argument : List Char} {simple : Simple} (h : negated pos argument = .ok simple) :
    Text.trim argument ≠ [] ∧ ∃ inner, compound (pos + spaces argument) (Text.trim argument) = .ok inner ∧
      (Text.trim argument).drop inner.size = [] ∧ single pos inner.value = .ok simple := by
  rw [negated.eq_def] at h
  dsimp only at h
  split at h
  · cases h
  · next visible =>
      split at h
      · cases h
      · next parts n found =>
          split at h
          · cases h
          · next done => exact ⟨visible, _, found, done, h⟩

/-- What is read behind a compound: the end of its selector, or a combinator with another compound. -/
inductive LinksForm (pos : Nat) (text : List Char) : Scan (List (Combinator × Compound)) → Prop
  | stop {m : Nat} : joint (spaces text != 0) (text.drop (spaces text)) = (.none, m) → LinksForm pos text ⟨[], spaces text⟩
  | link {sign : Combinator} {m n : Nat} {parts : Scan Compound} {more : Scan (List (Combinator × Compound))} :
      joint (spaces text != 0) (text.drop (spaces text)) = (.combinator sign, m) →
      n = spaces text + m + spaces (text.drop (spaces text + m)) → text.drop n ≠ [] → (text.drop n).head? ≠ some ',' →
      compound (pos + n) (text.drop n) = .ok parts →
      links (pos + (n + parts.size)) (text.drop (n + parts.size)) = .ok more →
      LinksForm pos text (more.behind (n + parts.size) ((sign, parts.value) :: ·))

theorem links_form {pos : Nat} {text : List Char} {s : Scan (List (Combinator × Compound))}
    (h : links pos text = .ok s) : LinksForm pos text s := by
  rw [links.eq_def] at h
  dsimp only at h
  split at h
  · next stop =>
      obtain rfl := Except.ok.inj h
      exact .stop stop
  · cases h
  · next sign =>
      split at h
      · cases h
      · next c rest start =>
          split at h
          · cases h
          · next comma =>
              split at h
              · cases h
              · next found =>
                  obtain ⟨more, tail, rfl⟩ := map_eq_ok h
                  exact .link sign rfl (by simp [start]) (by simpa [start] using comma) found tail

theorem complex_form {pos : Nat} {text : List Char} {s : Scan Complex} (h : complex pos text = .ok s) :
    ∃ first more, compound pos text = .ok first ∧ links (pos + first.size) (text.drop first.size) = .ok more ∧
      s = more.behind first.size (⟨first.value, ·⟩) := by
  unfold complex at h
  split at h
  · cases h
  · next found =>
      obtain ⟨more, tail, rfl⟩ := map_eq_ok h
      exact ⟨_, more, found, tail, rfl⟩

/-- A list ends with the text of its last selector, or goes on behind one more character. -/
inductive SelectorsForm (pos : Nat) (text : List Char) : List Complex → Prop
  | last {first : Scan Complex} : complex (pos + spaces text) (text.drop (spaces text)) = .ok first →
      text.drop (spaces text + first.size) = [] → SelectorsForm pos text [first.value]
  | more {first : Scan Complex} {c : Char} {rest : List Char} {list : List Complex} :
      complex (pos + spaces text) (text.drop (spaces text)) = .ok first →
      text.drop (spaces text + first.size) = c :: rest →
      selectors (pos + (spaces text + first.size + 1)) rest = .ok list → SelectorsForm pos text (first.value :: list)

theorem selectors_nil : selectors 0 [] = .error ⟨.noSelector, 0⟩ := by cbv

theorem selectors_form {pos : Nat} {text : List Char} {list : List Complex} (h : selectors pos text = .ok list) :
    SelectorsForm pos text list := by
  rw [selectors.eq_def] at h
  dsimp only at h
  split at h
  · cases h
  · next found =>
      split at h
      · next done =>
          obtain rfl := Except.ok.inj h
          exact .last found done
      · next goesOn =>
          obtain ⟨tail, read, rfl⟩ := map_eq_ok h
          exact .more found goesOn read

end StyleAudit.Selector
