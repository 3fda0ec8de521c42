import StyleAudit.Number.Decimal
/-!
Sizes: how much of a style sheet its compact form saves.
-/
namespace StyleAudit

/-- The bytes of a style sheet as written and in compact form. -/
structure Sizes where
  written : Nat
  compact : Nat
  deriving DecidableEq, Repr

namespace Sizes

/-- The bytes that the compact form saves; none if it is the longer one. -/
def saved (s : Sizes) : Nat := s.written - s.compact

/-- The saved bytes in percent of those written, with two places. The number is a hundred times the one size over the
other, rounded to double precision at each step; of nothing, nothing is saved. -/
def percent (s : Sizes) : String :=
  if s.written = 0 then "0.00"
  else (Binary64.quotient (Binary64.product (.ofNat 100) (.ofNat s.saved)) (.ofNat s.written)).textTwoPlaces

end Sizes
end StyleAudit
