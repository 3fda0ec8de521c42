import StyleAudit.Selector.Grammar
import StyleAudit.Selector.Repair
import StyleAudit.Findings.Record
/-!
Inspection of one selector: it is read strictly and, as long as that fails, mended and read again.
-/
namespace StyleAudit

open Selector (Unmodeled)

/-- How often a selector is mended before it is given up. -/
def repairLimit : Nat := 10

/-- What was found in a selector, and what stopped the inspection if something did. -/
structure Inspection where
  findings : Findings := {}
  stopped : Option Unmodeled := none
  deriving DecidableEq, Repr

namespace Inspection

/-- More findings in front. -/
def after (f : Findings) (i : Inspection) : Inspection := ⟨f ++ i.findings, i.stopped⟩

end Inspection

/-- The uses of vocabulary in a selector list. -/
def selectorUses (v : Vocabulary) (selectors : List Selector.Complex) : Except Unmodeled (List Use) :=
  (Selector.chains selectors).map fun chains => chains.flatMap (chainUses v)

/-- The repairs of one round, as findings on a line. -/
def roundFindings (line : Nat) (r : Selector.Repairing) : Findings :=
  { repairs := r.recorded.map fun (kind, replacement) => ⟨line, kind, replacement⟩ }

/-- A selector that could not be mended. -/
def giveUp (line : Nat) (written : String) (left : List Char) (reason : String) : Inspection :=
  { findings := .failure line ⟨written, String.ofList left, reason⟩ }

/-- The inspection of a selector as it is now, with the given number of repairs left. -/
def inspectFrom (v : Vocabulary) (line : Nat) (written : String) (rounds : Nat) (current : List Char) : Inspection :=
  if current = [] then {}
  else match Selector.selectors 0 current with
    | .ok selectors =>
      match selectorUses v selectors with
      | .ok uses => { findings := .ofUses line uses }
      | .error e => { stopped := some e }
    | .error rejection =>
      match rounds with
      | 0 =>
        giveUp line written current
          ("repair limit of " ++ toString repairLimit ++ " rounds reached: " ++ rejection.text)
      | more + 1 =>
        let r := Selector.repair current
        if r.count = 0 then giveUp line written current rejection.text
        else (inspectFrom v line written more r.text).after (roundFindings line r)

def inspect (v : Vocabulary) (line : Nat) (selector : String) : Inspection :=
  inspectFrom v line selector repairLimit (Text.trim selector.toList)

end StyleAudit
