import StyleAudit.Report.Line
/-!
The progress line of a run. It is written anew for each file: the name of the file, and how many files of how many are
done. A line fills the width of the terminal exactly, unless too little room is left to show a name at all.
-/
namespace StyleAudit.Report

/-- How far a run has come, on a terminal of some width. -/
structure Progress where
  width : Nat
  total : Nat := 0
  complete : Nat := 0
  deriving DecidableEq, Repr

/-- What stands in front of the name. -/
def lineBeginning : String := " Analyzing: "

/-- With less room than this no name is shown. -/
def leastRoom : Nat := 26

/-- A name, or as much of its end as there is room for behind an ellipsis. -/
def endOfName (room : Nat) (name : List Char) : List Char :=
  if name.length ≤ room then name else "...".toList ++ name.drop (name.length - (room - 3))

namespace Progress

def start (p : Progress) (total : Nat) : Progress := { p with total, complete := 0 }

/-- The counter behind the name: its first number is as wide as its second. -/
def counter (p : Progress) : String :=
  let total := toString p.total
  let complete := toString p.complete
  " " ++ blanks (total.length - complete.length) ++ complete ++ " / " ++ total

def room (p : Progress) : Nat := p.width - (lineBeginning.length + p.counter.length)

/-- The line that shows a file. -/
def line (p : Progress) (name : String) : String :=
  if p.room < leastRoom then lineBeginning ++ " ... " ++ p.counter
  else
    let shown := endOfName p.room name.toList
    lineBeginning ++ String.ofList shown ++ blanks (p.room - shown.length) ++ p.counter

/-- What ends a line: the last one stays, any other is written over. -/
def lineEnd (p : Progress) : String := if p.total ≤ p.complete then "\n" else "\x0d"

def advance (p : Progress) : Progress := { p with complete := p.complete + 1 }

/-- What is written when the file of the name is done. -/
def mark (p : Progress) (name : String) : String := p.advance.line name ++ p.advance.lineEnd

def marks (p : Progress) : List String → List String
  | [] => []
  | name :: rest => p.mark name :: p.advance.marks rest

end Progress
end StyleAudit.Report
