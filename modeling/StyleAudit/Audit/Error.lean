import StyleAudit.Selector.Chain
/-!
Why a file could not be audited. Faults in selectors are findings and never end up here.
-/
namespace StyleAudit

/-- What stopped the audit of the file with the given scan path. -/
inductive AuditError where
  /-- The file could not be read, for a reason that the system gives. -/
  | unreadable (scanPath reason : String)
  /-- A selector on the line holds something that chains have no place for. -/
  | unmodeled (scanPath : String) (line : Nat) (construct : Selector.Unmodeled)
  /-- The group of rules on the line holds a rule that belongs to the top level. -/
  | groupItem (scanPath : String) (line : Nat) (construct : String)
  deriving DecidableEq, Repr

def AuditError.message : AuditError → String
  | .unreadable scanPath reason => scanPath ++ ": could not read file: " ++ reason
  | .unmodeled scanPath line .column =>
    "Unknown combinator type in " ++ scanPath ++ " @ " ++ toString line ++ ": ||"
  | .unmodeled scanPath line .nesting =>
    "Unknown simple selector type in " ++ scanPath ++ " @ " ++ toString line ++ ": &"
  | .groupItem scanPath line construct =>
    "Unknown @rule block list item " ++ construct ++ " in " ++ scanPath ++ " @ line " ++ toString line

end StyleAudit
