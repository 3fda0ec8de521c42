/-!
The arguments of the command line: flags, the directory of vocabulary tables, and the source to audit. Arguments are
read from left to right, and the first that asks for help or the version, or that cannot be accepted, settles the matter.
-/
namespace StyleAudit.CommandLine

/-- What is switched on or off by a flag. -/
inductive Flag where
  | everyType
  | progress
  | json
  | plain
  | debug
  deriving DecidableEq, Repr

namespace Flag

def all : List Flag := [.everyType, .progress, .json, .plain, .debug]

def name : Flag → String
  | .everyType => "show-all-files"
  | .progress => "show-progress"
  | .json => "json"
  | .plain => "no-color"
  | .debug => "debug"

def letter? : Flag → Option Char
  | .everyType => some 'a'
  | .progress => some 'p'
  | .debug => some 'd'
  | .json | .plain => none

end Flag

/-- What the arguments ask for. -/
structure Options where
  source : String
  flags : List Flag
  /-- The directory of the vocabulary tables, if they are not the bundled ones. -/
  vocabulary : Option String
  deriving DecidableEq, Repr

def Options.has (o : Options) (f : Flag) : Bool := o.flags.contains f

/-- What ends the reading of arguments early. -/
inductive Stop where
  | help
  | version
  /-- An argument that is not known, comes once too often, or lacks its value. -/
  | refused (argument : String)
  /-- The source is missing. -/
  | noSource
  deriving DecidableEq, Repr

/-- The arguments read so far. -/
structure Reading where
  source : Option String := none
  flags : List Flag := []
  vocabulary : Option String := none
  deriving DecidableEq, Repr

namespace Reading

/-- A flag. None may come twice. -/
def flag (r : Reading) (argument : String) (f : Flag) : Except Stop Reading :=
  if f ∈ r.flags then .error (.refused argument) else .ok { r with flags := f :: r.flags }

/-- The letters of an argument with one hyphen, each of which is a flag. -/
def letters (r : Reading) (argument : String) : List Char → Except Stop Reading
  | [] => .ok r
  | c :: rest =>
    if c = 'h' then .error .help
    else if c = 'V' then .error .version
    else match Flag.all.find? (·.letter? = some c) with
      | some f => (r.flag argument f).bind fun r => r.letters argument rest
      | none => .error (.refused argument)

/-- The directory of vocabulary tables. It may neither be empty nor come twice. -/
def tables (r : Reading) (directory : String) : Except Stop Reading :=
  if directory = "" ∨ r.vocabulary.isSome then .error (.refused "--vocabulary")
  else .ok { r with vocabulary := some directory }

/-- The source. It may neither be empty nor come twice. -/
def operand (r : Reading) (name : String) : Except Stop Reading :=
  if name = "" ∨ r.source.isSome then .error (.refused name) else .ok { r with source := some name }

/-- The name of an argument with two hyphens; flags have no values. -/
def named (r : Reading) (name : String) : Except Stop Reading :=
  if name = "help" then .error .help
  else if name = "version" then .error .version
  else match Flag.all.find? (·.name = name) with
    | some f => r.flag ("--" ++ name) f
    | none => .error (.refused ("--" ++ name))

/-- All arguments are read. -/
def finish (r : Reading) : Except Stop Options :=
  match r.source with
  | some source => .ok ⟨source, r.flags, r.vocabulary⟩
  | none => .error .noSource

end Reading

/-- The forms of an argument. -/
inductive Argument where
  /-- What comes behind it are operands. -/
  | endOfOptions
  /-- The directory of vocabulary tables, attached or as the next argument. -/
  | tables (attached : Option String)
  | named (name : String)
  | letters (cs : List Char)
  | operand (text : String)
  deriving DecidableEq, Repr

/-- The form of an argument. A single hyphen is an operand. -/
def Argument.ofText (text : String) : Argument :=
  match text.toList with
  | ['-', '-'] => .endOfOptions
  | '-' :: '-' :: name =>
    if name = "vocabulary".toList then .tables none
    else if "vocabulary=".toList <+: name then .tables (some (String.ofList (name.drop "vocabulary=".length)))
    else .named (String.ofList name)
  | '-' :: c :: cs => .letters (c :: cs)
  | _ => .operand text

def readOperands (r : Reading) : List String → Except Stop Reading
  | [] => .ok r
  | name :: rest => (r.operand name).bind fun r => readOperands r rest

/-- The arguments one by one. -/
def readArguments (r : Reading) : List String → Except Stop Reading
  | [] => .ok r
  | text :: rest =>
    match Argument.ofText text with
    | .endOfOptions => readOperands r rest
    | .tables (some directory) => (r.tables directory).bind fun r => readArguments r rest
    | .tables none =>
      match rest with
      | value :: more =>
        match Argument.ofText value with
        | .operand directory => (r.tables directory).bind fun r => readArguments r more
        | _ => .error (.refused text)
      | [] => .error (.refused text)
    | .named name => (r.named name).bind fun r => readArguments r rest
    | .letters cs => (r.letters text cs).bind fun r => readArguments r rest
    | .operand name => (r.operand name).bind fun r => readArguments r rest

def Options.ofArguments (arguments : List String) : Except Stop Options :=
  (readArguments {} arguments).bind Reading.finish

end StyleAudit.CommandLine
