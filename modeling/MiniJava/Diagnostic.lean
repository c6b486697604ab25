import MiniJava.Text.Position

/-!
# Diagnostics

What the compiler has to say about a program: a message with its severity, the stage that found it,
and where it points. A place is given by a position (line and column), by a span of bytes, or not at
all. Notes and suggestions follow the message.

`Diagnostic.text` is the one-line summary, such as `error[semantic] 3:9: Variable x not declared`.
The severity is the `DiagnosticLevel`.
-/

namespace MiniJava

/-- How grave a diagnostic is. Only an error stops the compilation. -/
inductive Severity where
  | error
  | warning
  | info
  | note
deriving DecidableEq, Repr, Inhabited

namespace Severity

/-- The word shown for a severity. -/
def name : Severity → String
  | error => "error"
  | warning => "warning"
  | info => "info"
  | note => "note"

/-- Only `error` is an error. -/
def isError : Severity → Bool
  | error => true
  | _ => false

/-- The severity of this name. -/
def ofName? : String → Option Severity
  | "error" => some error
  | "warning" => some warning
  | "info" => some info
  | "note" => some note
  | _ => none

end Severity

/-- The stages of a compilation. -/
inductive Stage where
  /-- From text to syntax tree. -/
  | syntactic
  /-- The symbol table and the checks on the tree. -/
  | semantic
  /-- Constant propagation and folding. -/
  | optimization
  /-- From the tree to three-address code. -/
  | lowering
  /-- From three-address code to assembly. -/
  | assembly
deriving DecidableEq, Repr, Inhabited

namespace Stage

/-- The word shown for a stage; the last two are called by the format they produce. -/
def name : Stage → String
  | syntactic => "syntactic"
  | semantic => "semantic"
  | optimization => "optimization"
  | lowering => "ollir"
  | assembly => "jasmin"

/-- The stage of this name. -/
def ofName? : String → Option Stage
  | "syntactic" => some syntactic
  | "semantic" => some semantic
  | "optimization" => some optimization
  | "ollir" => some lowering
  | "jasmin" => some assembly
  | _ => none

end Stage

/-- Advice on how to mend a program, with the text to write if there is one. -/
structure Suggestion where
  message : String
  replacement : Option String := none
deriving DecidableEq, Repr, Inhabited

/-- One message about a program. -/
structure Diagnostic where
  severity : Severity
  message : String
  stage : Option Stage := none
  span : Option Span := none
  position : Option Position := none
  file : Option String := none
  notes : List String := []
  suggestions : List Suggestion := []
deriving DecidableEq, Repr, Inhabited

namespace Diagnostic

/-- An error found by a stage. -/
def error (stage : Stage) (message : String) : Diagnostic :=
  { severity := .error, message, stage := some stage }

/-- A warning raised by a stage. -/
def warning (stage : Stage) (message : String) : Diagnostic :=
  { severity := .warning, message, stage := some stage }

/-- Point at a position. One that is not known changes nothing. -/
def pointAt (d : Diagnostic) (p : Position) : Diagnostic :=
  if p.isKnown then { d with position := some p } else d

/-- Add a note. -/
def addNote (d : Diagnostic) (note : String) : Diagnostic :=
  { d with notes := d.notes ++ [note] }

/-- Add a suggestion. -/
def suggest (d : Diagnostic) (s : Suggestion) : Diagnostic :=
  { d with suggestions := d.suggestions ++ [s] }

/-- The line pointed at, 0 when there is none. -/
def line (d : Diagnostic) : UInt32 := (d.position.map Position.line).getD 0

/-- The column pointed at, 0 when there is none. -/
def column (d : Diagnostic) : UInt32 := (d.position.map Position.column).getD 0

/-- The stage in brackets, or nothing. -/
def stageTag (d : Diagnostic) : String :=
  match d.stage with
  | some s => "[" ++ s.name ++ "]"
  | none => ""

/-- The one-line summary. -/
def text (d : Diagnostic) : String :=
  let place := match d.position with
    | some p => " " ++ p.text
    | none => ""
  d.severity.name ++ d.stageTag ++ place ++ ": " ++ d.message

end Diagnostic

end MiniJava
