import StyleAudit.Proofs.Outlines
import StyleAudit.Proofs.Phrases
import StyleAudit.Proofs.TightenedText
/-!
The `!important` mark at the end of a value. The component values of a declaration are cut node by node, its text is cut
character by character: at the last exclamation mark, and then back to the last character that is no blank. What both leave
is told here by the nodes in front of the mark.
-/
namespace StyleAudit.Css

open Node (listTokens listTokens_append)
open Text (Scan trimEnd isBlank isHexDigit)

/-- Tokens that are all white space. -/
def AreBlank (ts : List Token) : Prop := ∀ t ∈ ts, t.kind = .whitespace

/-- An `!important` mark, with the white space in it and in front of it. -/
structure Mark where
  before : List Token
  bang : Token
  gap : List Token
  word : Token

namespace Mark

def tokens (m : Mark) : List Token := m.before ++ m.bang :: (m.gap ++ [m.word])

/-- The word is written in any case. -/
structure IsWritten (m : Mark) : Prop where
  before : AreBlank m.before
  bang : m.bang.kind = .delim '!'
  gap : AreBlank m.gap
  word : ∃ word, m.word.kind = .ident word ∧ word.toLower = "important"

end Mark

/-- Nodes that do not end in white space. -/
def EndsVisibly (ns : List Node) : Prop := ∀ n ∈ ns.getLast?, n.kind? ≠ some .whitespace

/-! The nodes of a mark. -/

theorem isWhitespace_ofNode {n : Node} : (ComponentValue.ofNode n).isWhitespace = true ↔ n.kind? = some .whitespace := by
  cases n with
  | leaf t =>
      rw [ComponentValue.ofNode, Node.kind?, Option.some_inj]
      unfold ComponentValue.isWhitespace
      split
      · next same => exact ⟨fun _ => (ComponentValue.token.inj same), fun _ => rfl⟩
      · next other => exact ⟨nofun, fun same => absurd (congrArg ComponentValue.token same) other⟩
  | block => exact ⟨nofun, nofun⟩

theorem leaf_of_ofNode {n : Node} {kind : TokenKind} (h : ComponentValue.ofNode n = .token kind) :
    ∃ t, n = .leaf t ∧ t.kind = kind := by
  cases n with
  | leaf t => exact ⟨t, rfl, ComponentValue.token.inj h⟩
  | block => cases h

theorem leaves_of_blank {ns : List Node} (h : Clause.Blank ns) : ∃ ts, ns = ts.map .leaf ∧ AreBlank ts := by
  induction ns with
  | nil => exact ⟨[], rfl, List.forall_mem_nil _⟩
  | cons n ns ih =>
      obtain ⟨t, rfl, kind⟩ := leaf_of_kind? (h n List.mem_cons_self)
      obtain ⟨ts, rfl, blank⟩ := ih fun m hm => h m (List.mem_cons_of_mem _ hm)
      exact ⟨t :: ts, rfl, List.forall_mem_cons.mpr ⟨kind, blank⟩⟩

theorem AreBlank.leaves {ts : List Token} (h : AreBlank ts) : Clause.Blank (ts.map .leaf) := by
  intro n hn
  obtain ⟨t, ht, rfl⟩ := List.mem_map.mp hn
  exact congrArg some (h t ht)

theorem AreBlank.append {ts us : List Token} (h : AreBlank ts) (h' : AreBlank us) : AreBlank (ts ++ us) :=
  List.forall_mem_append.mpr ⟨h, h'⟩

/-- White space at the end of nodes is dropped, and nothing else. -/
theorem dropWhitespace_ofNodes {blank ns : List Node} (h : Clause.Blank blank)
    (visible : ∀ n ∈ ns.head?, n.kind? ≠ some .whitespace) :
    dropWhitespace (ComponentValue.ofNodes (blank ++ ns)) = ComponentValue.ofNodes ns := by
  have white : ∀ v ∈ blank.map ComponentValue.ofNode, v.isWhitespace = true := by
    intro v hv
    obtain ⟨n, hn, rfl⟩ := List.mem_map.mp hv
    exact isWhitespace_ofNode.mpr (h n hn)
  rw [dropWhitespace, ComponentValue.ofNodes_eq_map, ComponentValue.ofNodes_eq_map, List.map_append,
    List.dropWhile_append_of_pos white]
  cases ns with
  | nil => rfl
  | cons n ns => exact List.dropWhile_cons_of_neg (mt isWhitespace_ofNode.mp (visible n rfl))

/-- White space in front of nodes, as tokens. -/
theorem exists_ahead (ns : List Node) : ∃ (blank : List Token) (rest : List Node), ns = blank.map Node.leaf ++ rest ∧
    AreBlank blank ∧ (∀ n ∈ rest.head?, n.kind? ≠ some .whitespace) ∧
      dropWhitespace (ComponentValue.ofNodes ns) = ComponentValue.ofNodes rest := by
  obtain ⟨blank, rest, rfl, white, visible⟩ := Clause.exists_blank ns
  have dropped := dropWhitespace_ofNodes white visible
  obtain ⟨ts, rfl, blank⟩ := leaves_of_blank white
  exact ⟨ts, rest, rfl, blank, visible, dropped⟩

theorem leaf_of_ofNodes {ns : List Node} {kind : TokenKind} {values : List ComponentValue}
    (h : ComponentValue.ofNodes ns = .token kind :: values) :
    ∃ t rest, ns = .leaf t :: rest ∧ t.kind = kind ∧ ComponentValue.ofNodes rest = values := by
  cases ns with
  | nil => cases h
  | cons n rest =>
      rw [ComponentValue.ofNodes, List.cons.injEq] at h
      obtain ⟨t, rfl, same⟩ := leaf_of_ofNode h.1
      exact ⟨t, rest, rfl, same, h.2⟩

theorem word_of_ofNodes {ns : List Node} {values : List ComponentValue}
    (h : beforeImportantWord (ComponentValue.ofNodes ns) = some values) :
    ∃ t rest, ns = .leaf t :: rest ∧ (∃ word, t.kind = .ident word ∧ word.toLower = "important") ∧
      dropWhitespace (ComponentValue.ofNodes rest) = values := by
  unfold beforeImportantWord at h
  split at h
  · next word later same =>
      obtain ⟨t, rest, rfl, kind, rfl⟩ := leaf_of_ofNodes same
      split at h
      · next spelled => exact ⟨t, rest, rfl, ⟨word, kind, spelled⟩, Option.some.inj h⟩
      · cases h
  · cases h

theorem reverse_marked (front : List Node) (m : Mark) (tail : List Token) :
    (front ++ (m.tokens ++ tail).map Node.leaf).reverse = tail.reverse.map Node.leaf ++ .leaf m.word ::
      (m.gap.reverse.map Node.leaf ++ .leaf m.bang :: (m.before.reverse.map Node.leaf ++ front.reverse)) := by
  simp [Mark.tokens]

theorem AreBlank.reverse {ts : List Token} (h : AreBlank ts) : AreBlank ts.reverse := fun t ht => h t (List.mem_reverse.mp ht)

/-- A value with a mark, and what is in front of the mark. -/
theorem exists_mark {value : List Node} {values : List ComponentValue}
    (h : beforeImportant (ComponentValue.ofNodes value.reverse) = some values) :
    ∃ (front : List Node) (m : Mark) (tail : List Token), value = front ++ (m.tokens ++ tail).map Node.leaf ∧ m.IsWritten ∧
      AreBlank tail ∧ EndsVisibly front := by
  obtain ⟨tail, ns, split, blank, -, dropped⟩ := exists_ahead value.reverse
  rw [beforeImportant, dropped] at h
  split at h
  · next rest found =>
      obtain ⟨word, ns, rfl, spelled, left⟩ := word_of_ofNodes found
      obtain ⟨gap, ns, rfl, white, -, dropped⟩ := exists_ahead ns
      obtain ⟨bang, ns, rfl, mark, -⟩ := leaf_of_ofNodes (dropped.symm.trans left)
      obtain ⟨before, front, rfl, space, visible, -⟩ := exists_ahead ns
      refine ⟨front.reverse, ⟨before.reverse, bang, gap.reverse, word⟩, tail.reverse, ?_,
        ⟨space.reverse, mark, white.reverse, spelled⟩, blank.reverse, ?_⟩
      · rw [← List.reverse_inj, split, reverse_marked]
        simp only [List.reverse_reverse]
      · rwa [EndsVisibly, List.getLast?_reverse]
  · cases h

theorem beforeImportant_marked {front : List Node} {m : Mark} {tail : List Token} (h : m.IsWritten) (blank : AreBlank tail) :
    beforeImportant (ComponentValue.ofNodes (front ++ (m.tokens ++ tail).map Node.leaf).reverse) =
      some (ComponentValue.ofNodes (m.before.reverse.map Node.leaf ++ front.reverse)) := by
  obtain ⟨word, kind, spelled⟩ := h.word
  rw [reverse_marked, beforeImportant, dropWhitespace_ofNodes blank.reverse.leaves (by simp [Node.kind?, kind]),
    ComponentValue.ofNodes, ComponentValue.ofNode, kind, beforeImportantWord, if_pos spelled,
    dropWhitespace_ofNodes h.gap.reverse.leaves (by simp [Node.kind?, h.bang]), ComponentValue.ofNodes, ComponentValue.ofNode, h.bang]
  rfl

/-! The text of a value with a mark. -/

theorem compactFrom_blank {ts : List Token} (h : AreBlank ts) (last : Option Char) (space : Bool) :
    compactFrom last space ts = [] := by
  induction ts generalizing space with
  | nil => rfl
  | cons t ts ih => rw [compactFrom, if_pos (h t List.mem_cons_self), ih fun u hu => h u (List.mem_cons_of_mem t hu)]

/-- White space at the end of tokens is not kept. -/
theorem compactFrom_append_blank {ts blank : List Token} (h : AreBlank blank) (last : Option Char) (space : Bool) :
    compactFrom last space (ts ++ blank) = compactFrom last space ts := by
  induction ts generalizing last space with
  | nil => exact compactFrom_blank h last space
  | cons t ts ih => rw [List.cons_append, compactFrom, compactFrom, ih, ih]

/-- In front of a token that is no white space, there is a space in the text or none. -/
theorem compactFrom_append_cons {t : Token} (visible : t.kind ≠ .whitespace) (ts us : List Token) (last : Option Char)
    (space : Bool) : ∃ gap last', (∀ c ∈ gap, c = ' ') ∧
      compactFrom last space (ts ++ t :: us) = compactFrom last space ts ++ (gap ++ t.lexeme ++ compactFrom last' false us) := by
  induction ts generalizing last space with
  | nil =>
      refine ⟨_, _, ?_, compactFrom_visible visible last space us⟩
      intro c hc
      split at hc
      · exact List.mem_singleton.mp hc
      · cases hc
  | cons u ts ih =>
      rw [List.cons_append, compactFrom, compactFrom]
      split
      · exact ih last true
      · obtain ⟨gap, last', spaces, same⟩ := ih (u.lexeme.getLast?.or last) false
        exact ⟨gap, last', spaces, by simp only [same, List.append_assoc]⟩

theorem identToken_ne_delim (text : List Char) (d : Char) : (identToken text).value ≠ .delim d := by
  unfold identToken
  simp only
  split
  · split
    · rw [Scan.behind_value, urlToken.eq_def, id]
      split
      · simp
      · simp
      · rw [Scan.behind_value]
        split <;> simp
    · simp
  · simp

theorem numericToken_ne_delim (text : List Char) (d : Char) : (numericToken text).value ≠ .delim d := by
  unfold numericToken
  simp only
  split
  · simp
  · split <;> simp

/-- A token that is a character of its own is read from just that character. -/
theorem token_of_delim {c d : Char} {rest : List Char} (h : (token c rest).value = .delim d) :
    c = d ∧ (token c rest).size = 1 := by
  rcases token_begins c rest with ⟨kind, mark, same⟩ | ⟨-, same⟩ | ⟨-, same⟩ | ⟨plain, -⟩
  · rw [same] at h
    subst h
    unfold punctuation? at mark
    split at mark <;> cases mark
  · rw [same] at h
    cases h
  · rw [same] at h
    rcases stringToken_value c rest with ⟨value, string⟩ | string <;> rw [string] at h <;> cases h
  · unfold token at h ⊢
    rw [plain.mark] at h ⊢
    simp only at h ⊢
    rw [if_neg plain.space, if_neg plain.quote] at h ⊢
    split at h
    · exact absurd h (numericToken_ne_delim _ d)
    · split at h
      · cases h
      · split at h
        · cases h
        · split at h
          · cases h
          · split at h
            · cases h
            · split at h
              · exact absurd h (identToken_ne_delim _ d)
              · cases h
                simp [*]

theorem bang_of_escaped {text : List Char} (h : '!' ∈ text.take (escaped text).size) : (escaped text).value = '!' := by
  cases text with
  | nil => cases h
  | cons c rest =>
      rw [escaped] at h ⊢
      split at h
      · next hex =>
          exfalso
          simp only [List.length_cons, Nat.add_sub_cancel] at h
          have run : (rest.take 5).takeWhile isHexDigit <+: rest := (List.takeWhile_prefix _).trans (List.take_prefix 5 rest)
          have digits : ∀ d ∈ (rest.take 5).takeWhile isHexDigit, isHexDigit d = true := fun d hd => List.mem_takeWhile_imp hd
          generalize (rest.take 5).takeWhile isHexDigit = digit at h run digits
          obtain ⟨behind, rfl⟩ := run
          rw [List.drop_left, Nat.add_right_comm, List.take_succ_cons, List.mem_cons, List.take_length_add_append,
            List.mem_append] at h
          rcases h with rfl | inside | last
          · cases hex
          · exact absurd (digits _ inside) (by decide)
          · cases behind with
            | nil => cases last
            | cons d behind =>
                split at last
                · next space =>
                    obtain rfl := List.mem_singleton.mp last
                    cases space
                · cases last
      · next plain =>
          rw [if_neg plain]
          exact (List.mem_singleton.mp h).symm

/-- An exclamation mark in the spelling of a name is part of an escape, and stands for itself. -/
theorem bang_mem_name {text : List Char} (h : '!' ∈ text.take (name text).size) : '!' ∈ (name text).value := by
  induction text using name.induct with
  | case1 => exact absurd h (by simp)
  | case2 c rest letter ih =>
      rw [name, if_pos letter, Scan.behind_size, Nat.add_comm, List.take_succ_cons, List.mem_cons] at h
      rw [name, if_pos letter, Scan.behind_value]
      rcases h with rfl | later
      · cases letter
      · exact List.mem_cons_of_mem c (ih later)
  | case3 c rest letter escape e ih =>
      rw [name, if_neg letter, if_pos escape] at h ⊢
      simp only [Scan.behind_size, Scan.behind_value] at h ⊢
      rw [Nat.add_assoc, Nat.add_comm, List.take_succ_cons, List.mem_cons, List.take_add, List.mem_append] at h
      rcases h with rfl | here | later
      · cases escape
      · rw [bang_of_escaped here]
        exact List.mem_cons_self
      · exact List.mem_cons_of_mem _ (ih later)
  | case4 c rest letter escape =>
      rw [name, if_neg letter, if_neg escape] at h
      cases h

theorem identToken_ident {text : List Char} {word : String} (h : (identToken text).value = .ident word) :
    identToken text = ⟨.ident (String.ofList (name text).value), (name text).size⟩ := by
  by_cases paren : (text.drop (name text).size).head? = some '('
  · obtain ⟨behind, opens⟩ := List.head?_eq_some_iff.mp paren
    rw [identToken_opens opens] at h
    split at h
    · rw [Scan.behind_value, urlToken.eq_def, id] at h
      split at h
      · cases h
      · cases h
      · rw [Scan.behind_value] at h
        split at h <;> cases h
    · cases h
  · exact identToken_plain paren

section
variable {t : Token} {rest : List Char}

theorem lexeme_of_delim {c : Char} (read : t.piece.IsRead rest) (kind : t.kind = .delim c) : t.lexeme = [c] := by
  obtain ⟨d, more, same, value, taken⟩ := read.token
  obtain ⟨rfl, size⟩ := token_of_delim (value.trans kind)
  rw [size, same] at taken
  exact same.trans taken.symm

/-- No exclamation mark is in the spelling of the word. -/
theorem bang_not_mem_word {word : String} (read : t.piece.IsRead rest) (kind : t.kind = .ident word)
    (spelled : word.toLower = "important") : '!' ∉ t.lexeme := by
  intro mem
  obtain ⟨c, more, same, value, taken⟩ := read.token
  replace value : (token c (more ++ rest)).value = .ident word := value.trans kind
  have named := token_named (by rw [value]; rfl)
  rw [named] at value taken
  have ident := identToken_ident value
  rw [ident] at value taken
  have spelling : t.lexeme = (c :: (more ++ rest)).take (name (c :: (more ++ rest))).size := by
    rw [same] at taken
    exact same.trans taken.symm
  rw [spelling] at mem
  have inside := bang_mem_name mem
  rw [← TokenKind.ident.inj value] at spelled
  have lower : '!' ∈ "important".toList := by
    rw [← spelled, String.toLower, String.toList_map, String.toList_ofList]
    exact List.mem_map_of_mem (f := Char.toLower) inside
  exact absurd lower (by decide)

end

/-! Texts cut at a mark. -/

/-- A mark whose tokens are spelled as tokens of a source are. -/
structure Mark.IsSpelled (m : Mark) : Prop where
  bang : m.bang.lexeme = ['!']
  word : '!' ∉ m.word.lexeme

theorem Mark.IsWritten.spelled {m : Mark} (h : m.IsWritten) (read : ∀ t ∈ m.tokens, ∃ rest, t.piece.IsRead rest) :
    m.IsSpelled where
  bang := by
    obtain ⟨rest, read⟩ := read m.bang (by simp [Mark.tokens])
    exact lexeme_of_delim read h.bang
  word := by
    obtain ⟨rest, read⟩ := read m.word (by simp [Mark.tokens])
    obtain ⟨word, kind, spelled⟩ := h.word
    exact bang_not_mem_word read kind spelled

/-- The text of a value with a mark, cut at its last exclamation mark, is the text of what is in front of the mark, trimmed. -/
theorem beforeLastBang_marked {m : Mark} (h : m.IsWritten) (spelled : m.IsSpelled) {tail : List Token} (blank : AreBlank tail)
    (ts : List Token) : beforeLastBang (compactText (ts ++ (m.tokens ++ tail))) = trimEnd (compactText ts) := by
  obtain ⟨word, kind, -⟩ := h.word
  have bang : m.bang.kind ≠ .whitespace := by simp [h.bang]
  have visible : m.word.kind ≠ .whitespace := by simp [kind]
  obtain ⟨blanks, last, spaces, front⟩ :=
    compactFrom_append_cons bang (ts ++ m.before) (m.gap ++ m.word :: tail) none false
  obtain ⟨inner, last', spaces', behind⟩ := compactFrom_append_cons visible m.gap tail last false
  have whole : compactText (ts ++ (m.tokens ++ tail)) = compactText ts ++ (blanks ++ '!' :: (inner ++ m.word.lexeme)) := by
    rw [compactFrom_append_blank h.before, behind, compactFrom_blank h.gap, compactFrom_blank blank, spelled.bang] at front
    simp only [Mark.tokens, compactText, List.append_assoc, List.cons_append, List.nil_append, List.append_nil] at front ⊢
    exact front
  rw [whole]
  refine beforeLastBang_append (fun c hc => by rw [spaces c hc]; rfl) fun mem => ?_
  rcases List.mem_append.mp mem with space | word
  · exact absurd (spaces' _ space) (by decide)
  · exact spelled.word word

/-! Declarations. -/

theorem reverse_ofNodes (ns : List Node) : (ComponentValue.ofNodes ns.reverse).reverse = ComponentValue.ofNodes ns := by
  rw [ComponentValue.ofNodes_eq_map, ComponentValue.ofNodes_eq_map, ← List.map_reverse, List.reverse_reverse]

section
variable {front : List Node} {m : Mark} {tail left : List Token} (name : String) (line : Nat)

/-- What a declaration keeps of a value with a mark. -/
theorem declaration_marked (h : m.IsWritten) (spelled : m.IsSpelled) (blank : AreBlank tail) (ends : EndsVisibly front) :
    declaration name line (front ++ (m.tokens ++ tail).map Node.leaf).reverse =
      ⟨name, ComponentValue.ofNodes front, String.ofList (trimEnd (compactText (listTokens front))), true, line⟩ := by
  rw [EndsVisibly, ← List.head?_reverse] at ends
  rw [declaration, beforeImportant_marked h blank]
  simp only [dropWhitespace_ofNodes h.before.reverse.leaves ends, List.reverse_reverse, listTokens_append,
    listTokens_leaves, beforeLastBang_marked h spelled blank, reverse_ofNodes]

/-- What a declaration keeps of a value without a mark. -/
theorem declaration_unmarked (ends : EndsVisibly front) (none : beforeImportant (ComponentValue.ofNodes front.reverse) = none) :
    declaration name line front.reverse =
      ⟨name, ComponentValue.ofNodes front, String.ofList (compactText (listTokens front)), false, line⟩ := by
  rw [EndsVisibly, ← List.head?_reverse] at ends
  rw [declaration, none]
  have kept : dropWhitespace (ComponentValue.ofNodes ([] ++ front.reverse)) = ComponentValue.ofNodes front.reverse :=
    dropWhitespace_ofNodes (List.forall_mem_nil _) ends
  rw [List.nil_append] at kept
  simp only [kept, reverse_ofNodes, List.reverse_reverse]

/-- White space at the end of a value is not kept. -/
theorem declaration_blank (blank : AreBlank left) :
    declaration name line (front ++ left.map Node.leaf).reverse = declaration name line front.reverse := by
  have dropped : dropWhitespace (ComponentValue.ofNodes (front ++ left.map Node.leaf).reverse) =
      dropWhitespace (ComponentValue.ofNodes front.reverse) := by
    have white : ∀ v ∈ (left.reverse.map Node.leaf).map ComponentValue.ofNode, v.isWhitespace = true := by
      intro v hv
      obtain ⟨n, hn, rfl⟩ := List.mem_map.mp hv
      exact isWhitespace_ofNode.mpr (blank.reverse.leaves n hn)
    rw [List.reverse_append, ← List.map_reverse, ComponentValue.ofNodes_eq_map, ComponentValue.ofNodes_eq_map,
      List.map_append, dropWhitespace, List.dropWhile_append_of_pos white, dropWhitespace]
  have text : compactText (listTokens (front ++ left.map Node.leaf)) = compactText (listTokens front) := by
    rw [listTokens_append, listTokens_leaves, compactText, compactFrom_append_blank blank, compactText]
  have mark : beforeImportant (ComponentValue.ofNodes (front ++ left.map Node.leaf).reverse) =
      beforeImportant (ComponentValue.ofNodes front.reverse) := by
    rw [beforeImportant, dropped, beforeImportant]
  rw [declaration, declaration, mark]
  simp only [dropped, List.reverse_reverse, text]

end
end StyleAudit.Css
