import StyleAudit.Number.Binary64
/-!
Decimal numbers and their passage to and from binary ones. Reading rounds to the nearest, once or in steps; writing
takes the fewest digits that read back as the same number, and of those the nearest.
-/
namespace StyleAudit

/-- The number `coefficient * 10 ^ exponent`, with its sign kept apart so that there is a negative zero. -/
structure Decimal where
  negative : Bool
  coefficient : Nat
  exponent : Int
  deriving DecidableEq, Repr

namespace Decimal

/-- The number that decimal digits denote. -/
def ofDigits (digits : List Char) : Nat :=
  digits.foldl (fun n c => 10 * n + (c.toNat - '0'.toNat)) 0

def digits (n : Nat) : List Char := Nat.toDigits 10 n

/-- The nearest binary number. Every number from `10 ^ 400` on is infinite and every one below `10 ^ -400` zero, so
that their powers of ten need not be computed. -/
def toBinary64 (d : Decimal) : Binary64 :=
  let size : Int := (digits d.coefficient).length + d.exponent
  if d.coefficient = 0 ∨ size < -400 then Binary64.zero d.negative
  else if 400 < size then .infinite d.negative
  else if d.exponent < 0 then Binary64.ofRatio d.negative d.coefficient (Nat.pow 10 (-d.exponent).toNat)
  else Binary64.ofRatio d.negative (d.coefficient * Nat.pow 10 d.exponent.toNat) 1

/-- Digits put behind a coefficient while it stays below `2 ^ 64`: the coefficient, and how many digits are left over
from the first that does not fit. -/
def keepDigits (n : Nat) : List Char → Nat × Nat
  | [] => (n, 0)
  | c :: rest =>
    let m := 10 * n + ofDigits [c]
    if m < Nat.pow 2 64 then keepDigits m rest else (n, rest.length + 1)

/-- The number with the given digits before and behind its point, times a power of ten. A digit that does not fit into
64 bits is left out with those after it on its side of the point, and each one left out before the point raises the
power by one. The digits kept behind the point follow directly on those kept before it. -/
def ofKeptDigits (negative : Bool) (whole fraction : List Char) (power : Int) : Decimal :=
  let (kept, raised) := keepDigits 0 whole
  let (coefficient, left) := keepDigits kept fraction
  ⟨negative, coefficient, power + raised - (fraction.length - left : Nat)⟩

/-- The greatest power of ten that is finite in double precision. -/
def greatestPower : Nat := 308

/-- The binary number reached in steps of double precision: the coefficient is rounded and then multiplied or divided
by a rounded power of ten. Where the power to divide by is past the greatest one, a division by that one comes first,
and past twice that power nothing is left. -/
def stepwise (d : Decimal) : Binary64 :=
  let start := Binary64.ofNat d.coefficient
  let power (n : Nat) := Binary64.ofNat (Nat.pow 10 n)
  let n := d.exponent.natAbs
  let magnitude :=
    if d.coefficient = 0 then start
    else if 0 ≤ d.exponent then
      if n ≤ greatestPower then start.product (power n) else .infinite false
    else if n ≤ greatestPower then start.quotient (power n)
    else if n ≤ 2 * greatestPower then (start.quotient (power greatestPower)).quotient (power (n - greatestPower))
    else .zero false
  magnitude.withSign d.negative

def ofNat (n : Nat) : Decimal := ⟨false, n, 0⟩

/-- The text of a number as it is: its coefficient and, unless it is zero, its exponent. -/
def text (d : Decimal) : String :=
  (if d.negative then "-" else "") ++ toString d.coefficient ++
    if d.exponent = 0 then "" else "e" ++ toString d.exponent

end Decimal

namespace Binary64

/-- The numbers that round to `m * 2 ^ e`, from `low` to `high` in units of `2 ^ (e - 2)`; the ends belong to it
when the significand is even. -/
structure RoundingInterval where
  low : Nat
  value : Nat
  high : Nat
  closed : Bool

/-- Below a power of two the neighbour is only half as far, save at the least exponent. -/
def roundingInterval (m : Nat) (e : Int) : RoundingInterval :=
  { low := if m = Nat.pow 2 52 ∧ leastExponent < e then 4 * m - 1 else 4 * m - 2
    value := 4 * m
    high := 4 * m + 2
    closed := m % 2 = 0 }

/-- A rounding interval on the grid of the multiples of `10 ^ k`: each end multiplied out, and the size of a step. -/
structure Grid where
  low : Nat
  value : Nat
  high : Nat
  step : Nat
  closed : Bool

def gridAt (m : Nat) (e k : Int) : Grid :=
  let i := roundingInterval m e
  let units := if e - 2 < 0 then 1 else Nat.pow 2 (e - 2).toNat
  let parts := if e - 2 < 0 then Nat.pow 2 (2 - e).toNat else 1
  let (up, step) := if k < 0 then (Nat.pow 10 (-k).toNat, 1) else (1, Nat.pow 10 k.toNat)
  { low := i.low * units * up
    value := i.value * units * up
    high := i.high * units * up
    step := step * parts
    closed := i.closed }

/-- Whether the point with the given number lies in the interval. -/
def Grid.holds (g : Grid) (point : Nat) : Bool :=
  let x := point * g.step
  if g.closed then g.low ≤ x && x ≤ g.high else g.low < x && x < g.high

/-- The nearer of the value's two neighbours on the grid that lie in the interval, the greater on a tie. -/
def Grid.nearest? (g : Grid) : Option Nat :=
  let below := g.value / g.step
  match g.holds below, g.holds (below + 1) with
  | true, true => some (if 2 * (g.value % g.step) < g.step then below else below + 1)
  | true, false => some below
  | false, true => some (below + 1)
  | false, false => none

/-- The power of ten of a positive quotient's first digit. -/
def leadingPower (num den : Nat) : Int :=
  if den ≤ num then ((Decimal.digits (num / den)).length : Int) - 1
  else
    let d := (Decimal.digits (den / num)).length
    if den ≤ num * Nat.pow 10 (d - 1) then -((d : Int) - 1) else -(d : Int)

/-- The coefficient and exponent of the shortest decimal that rounds to `m * 2 ^ e`: the widest grid on which there
is one. Seventeen digits are always enough. -/
def shortest (m : Nat) (e : Int) : Nat × Int :=
  let top := match ratio? (.finite false m e) with
    | some (num, den) => leadingPower num den
    | none => 0
  let found := (List.range 19).findSome? fun (i : Nat) =>
    let k := top + 1 - (i : Int)
    (gridAt m e k).nearest?.map (·, k)
  found.getD (0, 0)

/-- A coefficient times a power of ten in positional notation, without an exponent. -/
def positional (coefficient : Nat) (exponent : Int) : List Char :=
  let ds := Decimal.digits coefficient
  if 0 ≤ exponent then ds ++ List.replicate exponent.toNat '0'
  else
    let places := (-exponent).toNat
    if places < ds.length then ds.take (ds.length - places) ++ '.' :: ds.drop (ds.length - places)
    else '0' :: '.' :: (List.replicate (places - ds.length) '0' ++ ds)

/-- The text of a number: the shortest digits that read back, in positional notation. -/
def text (x : Binary64) : String :=
  let magnitude := match x with
    | .infinite _ => "inf".toList
    | .finite _ 0 _ => ['0']
    | .finite _ m e => let (c, k) := shortest m e; positional c k
  String.ofList (if x.isNegative then '-' :: magnitude else magnitude)

/-- The text of a number with two decimal places, rounded from its exact value, a half to the even digit. -/
def textTwoPlaces (x : Binary64) : String :=
  let magnitude := match x.ratio? with
    | none => "inf".toList
    | some (num, den) =>
      let hundredths := roundEven (num * 100) den
      let rest := hundredths % 100
      Decimal.digits (hundredths / 100) ++ '.' :: Decimal.digits (rest / 10) ++ Decimal.digits (rest % 10)
  String.ofList (if x.isNegative then '-' :: magnitude else magnitude)

end Binary64
end StyleAudit
