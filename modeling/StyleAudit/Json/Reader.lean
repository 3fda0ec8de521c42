import StyleAudit.Text.Escape
import StyleAudit.Text.Scan
import StyleAudit.Number.Decimal
import StyleAudit.Json.Value
/-!
Reading JSON strictly: no comments, no comma at the end of a list, no byte order mark, no surrogate without its partner,
and no number that becomes infinite in double precision. Of members with one key the last one counts.
-/
namespace StyleAudit.Json

open Text (Scan isHexDigit hexNumber charOfNumber)

def isSpace (c : Char) : Bool := c == ' ' || c == '\t' || c == '\n' || c == '\r'

def spaces (text : List Char) : Nat := (text.takeWhile isSpace).length

def fourDigits? (text : List Char) : Option Nat :=
  let digits := text.take 4
  if digits.length = 4 ∧ digits.all isHexDigit then some (hexNumber digits) else none

/-- The character of an escape that is written as a number, read behind its `u`. Past the first 65536 characters it is a
pair of surrogates. -/
def numberEscape? (text : List Char) : Option (Scan Char) :=
  match fourDigits? text with
  | none => none
  | some n =>
    if 0xDC00 ≤ n ∧ n ≤ 0xDFFF then none
    else if 0xD800 ≤ n ∧ n ≤ 0xDBFF then
      match text.drop 4 with
      | '\\' :: 'u' :: rest =>
        match fourDigits? rest with
        | some m =>
          if 0xDC00 ≤ m ∧ m ≤ 0xDFFF then
            some ⟨charOfNumber (0x10000 + 0x400 * (n - 0xD800) + (m - 0xDC00)), 10⟩
          else none
        | none => none
      | _ => none
    else some ⟨Char.ofNat n, 4⟩

/-- The character of an escape, read behind its backslash. -/
def escape? : List Char → Option (Scan Char)
  | '"' :: _ => some ⟨'"', 1⟩
  | '\\' :: _ => some ⟨'\\', 1⟩
  | '/' :: _ => some ⟨'/', 1⟩
  | 'b' :: _ => some ⟨'\x08', 1⟩
  | 'f' :: _ => some ⟨'\x0c', 1⟩
  | 'n' :: _ => some ⟨'\n', 1⟩
  | 'r' :: _ => some ⟨'\r', 1⟩
  | 't' :: _ => some ⟨'\t', 1⟩
  | 'u' :: rest => (numberEscape? rest).map (Scan.behind 1 id)
  | _ => none

/-- A string, read behind its first quote. Control characters have to be escaped. -/
def string? (text : List Char) : Option (Scan (List Char)) :=
  match text with
  | [] => none
  | c :: rest =>
    if c = '"' then some ⟨[], 1⟩
    else if c = '\\' then
      match escape? rest with
      | none => none
      | some e => (string? (rest.drop e.size)).map (Scan.behind (1 + e.size) (e.value :: ·))
    else if c.toNat < 32 then none
    else (string? rest).map (Scan.behind 1 (c :: ·))
termination_by text.length
decreasing_by all_goals simp only [List.length_drop, List.length_cons]; omega

def whole? (text : List Char) : Option (List Char) :=
  match text.takeWhile Char.isDigit with
  | [] => none
  | '0' :: _ :: _ => none
  | digits => some digits

/-- The fraction of a number, with its point; empty if there is none. -/
def fraction? : List Char → Option (List Char)
  | '.' :: rest =>
    match rest.takeWhile Char.isDigit with
    | [] => none
    | digits => some ('.' :: digits)
  | _ => some []

/-- The exponent of a number: its value and how many characters it takes, none if there is none. -/
def exponent? : List Char → Option (Scan Int)
  | [] => some ⟨0, 0⟩
  | c :: rest =>
    if c = 'e' ∨ c = 'E' then
      let (negative, sign) := match rest with
        | '-' :: _ => (true, 1)
        | '+' :: _ => (false, 1)
        | _ => (false, 0)
      match (rest.drop sign).takeWhile Char.isDigit with
      | [] => none
      | digits =>
        let n : Int := Decimal.ofDigits digits
        some ⟨if negative then -n else n, 1 + sign + digits.length⟩
    else some ⟨0, 0⟩

/-- A number; one that becomes infinite in double precision is refused. -/
def number? (text : List Char) : Option (Scan Decimal) := do
  let negative := text.head? == some '-'
  let sign := if negative then 1 else 0
  let whole ← whole? (text.drop sign)
  let n := sign + whole.length
  let fraction ← fraction? (text.drop n)
  let n := n + fraction.length
  let power ← exponent? (text.drop n)
  let value := Decimal.ofKeptDigits negative whole (fraction.drop 1) power.value
  if value.stepwise.isInfinite then none else some ⟨value, n + power.size⟩

/-- How deep arrays and objects may lie in one another. -/
def depthLimit : Nat := 127

def word? (text : List Char) : Option (Scan Value) :=
  if "null".toList <+: text then some ⟨.null, 4⟩
  else if "true".toList <+: text then some ⟨.bool true, 4⟩
  else if "false".toList <+: text then some ⟨.bool false, 5⟩
  else none

mutual
def value? (depth : Nat) (text : List Char) : Option (Scan Value) :=
  match text with
  | [] => none
  | c :: rest =>
    if c = '"' then (string? rest).map (Scan.behind 1 fun s => .string (String.ofList s))
    else if c = '[' then
      match depth with
      | 0 => none
      | inner + 1 =>
        let n := spaces rest
        if (rest.drop n).head? = some ']' then some ⟨.array [], 1 + n + 1⟩
        else (items? inner (rest.drop n)).map (Scan.behind (1 + n) .array)
    else if c = '\x7b' then
      match depth with
      | 0 => none
      | inner + 1 =>
        let n := spaces rest
        if (rest.drop n).head? = some '\x7d' then some ⟨.object [], 1 + n + 1⟩
        else (members? inner [] (rest.drop n)).map (Scan.behind (1 + n) .object)
    else if c = '-' ∨ c.isDigit then (number? (c :: rest)).map (Scan.map .number)
    else word? (c :: rest)
termination_by (text.length, 0)
decreasing_by
  all_goals apply Prod.Lex.left
  all_goals simp only [List.length_drop, List.length_cons]; omega

/-- The items of an array, of which there is at least one, with the bracket behind them. -/
def items? (depth : Nat) (text : List Char) : Option (Scan (List Value)) :=
  match value? depth text with
  | none => none
  | some v =>
    let n := v.size + spaces (text.drop v.size)
    match _h : text.drop n with
    | c :: rest =>
      if c = ']' then some ⟨[v.value], n + 1⟩
      else if c = ',' then
        let m := spaces rest
        (items? depth (rest.drop m)).map (Scan.behind (n + 1 + m) (v.value :: ·))
      else none
    | [] => none
termination_by (text.length, 1)
decreasing_by
  · rw [Prod.lex_def]; simp
  · apply Prod.Lex.left
    have := congrArg List.length _h
    simp only [List.length_drop, List.length_cons] at this ⊢
    omega

/-- The members of an object, of which there is at least one, with the bracket behind them, put to those before. -/
def members? (depth : Nat) (before : List (String × Value)) (text : List Char) :
    Option (Scan (List (String × Value))) :=
  match text with
  | '"' :: more =>
    match string? more with
    | none => none
    | some key =>
      let n := key.size + spaces (more.drop key.size)
      if (more.drop n).head? = some ':' then
        let n := n + 1 + spaces (more.drop (n + 1))
        match value? depth (more.drop n) with
        | none => none
        | some v =>
          let n := n + v.size
          let n := n + spaces (more.drop n)
          let members := setMember (String.ofList key.value) v.value before
          match _h : more.drop n with
          | c :: rest =>
            if c = '\x7d' then some ⟨members, 1 + n + 1⟩
            else if c = ',' then
              let m := spaces rest
              (members? depth members (rest.drop m)).map (Scan.behind (1 + n + 1 + m) id)
            else none
          | [] => none
      else none
  | _ => none
termination_by (text.length, 1)
decreasing_by
  · apply Prod.Lex.left
    simp only [List.length_drop, List.length_cons]; omega
  · apply Prod.Lex.left
    have := congrArg List.length _h
    simp only [List.length_drop, List.length_cons] at this ⊢
    omega
end

/-- The value that a text writes, with white space around it and nothing else. -/
def read? (text : String) : Option Value :=
  let text := text.toList
  let n := spaces text
  match value? depthLimit (text.drop n) with
  | none => none
  | some v =>
    let rest := text.drop (n + v.size)
    if spaces rest = rest.length then some v.value else none

end StyleAudit.Json
