/-!
Binary numbers with 53 significant bits, written exactly: a significand times a power of two. Every operation is
a rounding of an exact quotient of naturals, to the nearest number and to an even significand on a tie.
-/
namespace StyleAudit

/-- A double-precision number. A finite one is `significand * 2 ^ exponent`, and its significand has 53 bits
unless its exponent is the least one. -/
inductive Binary64 where
  | finite (negative : Bool) (significand : Nat) (exponent : Int)
  | infinite (negative : Bool)
  deriving DecidableEq, Repr, Inhabited

namespace Binary64

def leastExponent : Int := -1074

def greatestExponent : Int := 971

/-- The quotient as a natural number, a half going to the even neighbour. -/
def roundEven (num den : Nat) : Nat :=
  let q := num / den
  let r := num % den
  if 2 * r < den then q
  else if den < 2 * r then q + 1
  else if q % 2 = 0 then q else q + 1

/-- A quotient over a power of two, as numerator and denominator. -/
def scaled (num den : Nat) (e : Int) : Nat × Nat :=
  if e < 0 then (num * Nat.pow 2 (-e).toNat, den) else (num, den * Nat.pow 2 e.toNat)

/-- The exponent at which a positive quotient has 53 bits before the point, no less than the least one. -/
def exponentOf (num den : Nat) : Int :=
  let low : Int := (Nat.log2 num : Int) - (Nat.log2 den : Int) - 53
  let (n, d) := scaled num den low
  max leastExponent (if Nat.pow 2 53 ≤ n / d then low + 1 else low)

/-- The number with the given significand; one of 54 bits, which is a power of two, moves to the next exponent,
and what is past the greatest exponent is infinite. -/
def ofSignificand (negative : Bool) (m : Nat) (e : Int) : Binary64 :=
  let (m, e) := if m = Nat.pow 2 53 then (Nat.pow 2 52, e + 1) else (m, e)
  if greatestExponent < e then .infinite negative else .finite negative m e

def zero (negative : Bool) : Binary64 := .finite negative 0 leastExponent

/-- The number nearest to a quotient of naturals. -/
def ofRatio (negative : Bool) (num den : Nat) : Binary64 :=
  if num = 0 then zero negative
  else
    let e := exponentOf num den
    let (n, d) := scaled num den e
    ofSignificand negative (roundEven n d) e

def ofNat (n : Nat) : Binary64 := ofRatio false n 1

/-- The magnitude of a finite number as numerator and denominator; none for an infinite one. -/
def ratio? : Binary64 → Option (Nat × Nat)
  | .finite _ m e => some (if e < 0 then (m, Nat.pow 2 (-e).toNat) else (m * Nat.pow 2 e.toNat, 1))
  | .infinite _ => none

def isNegative : Binary64 → Bool
  | .finite s _ _ | .infinite s => s

def isInfinite : Binary64 → Bool
  | .finite .. => false
  | .infinite _ => true

def isZero : Binary64 → Bool
  | .finite _ m _ => m == 0
  | .infinite _ => false

/-- The number of the same magnitude with the given sign. -/
def withSign (negative : Bool) : Binary64 → Binary64
  | .finite _ m e => .finite negative m e
  | .infinite _ => .infinite negative

/-- The product of two finite numbers that are not negative. -/
def product (x y : Binary64) : Binary64 :=
  match x.ratio?, y.ratio? with
  | some (m, d), some (n, e) => ofRatio false (m * n) (d * e)
  | _, _ => .infinite false

/-- The quotient of two finite numbers that are not negative, the second not zero. -/
def quotient (x y : Binary64) : Binary64 :=
  match x.ratio?, y.ratio? with
  | some (m, d), some (n, e) => ofRatio false (m * e) (d * n)
  | _, _ => .infinite false

end Binary64
end StyleAudit
