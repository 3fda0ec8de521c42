/-!
Remarks that are made once. A remark comes from a component and is made under one text for both; a remark that was made
already is suppressed until all are forgotten.
-/
namespace StyleAudit.Report

/-- The remarks made so far. -/
structure Remarks where
  made : List String := []
  deriving DecidableEq, Repr

namespace Remarks

/-- The text that a remark is made under. -/
def text (component message : String) : String := "[" ++ component ++ "] " ++ message

/-- Whether a remark is to be made, and the remarks made after it. -/
def remark (r : Remarks) (component message : String) : Bool × Remarks :=
  let text := text component message
  if text ∈ r.made then (false, r) else (true, ⟨text :: r.made⟩)

def forget (_ : Remarks) : Remarks := {}

end Remarks
end StyleAudit.Report
