import MiniJava.Check
import MiniJava.Compile.Error
import MiniJava.Diagnostic.Report
import MiniJava.Ir.OfTree
import MiniJava.Jvm.Text

/-!
# Compiling

`compile` takes a text through all stages: raw tree (`parse_source`), and from there
(`compile_tree`) syntax tree, symbol table, checks, optimization if it is asked for, three-address
code and assembly. The first stage that fails ends it, except that with `bestEffort` the errors of
the checks become warnings. `check` stops before the optimization and reports all that it found, in
the order of the text.

A division by a literal 0 is legal and gets a warning (`division_by_zero`).
-/

namespace MiniJava

/-- How to compile. -/
structure CompileOptions where
  optimize : Bool := false
  bestEffort : Bool := false
  /-- The number of registers that a method may use. -/
  registerLimit : Option Nat := none
deriving DecidableEq, Repr, Inhabited

/-- The result of a compilation. -/
structure Compiled where
  /-- Three-address code. -/
  ir : String
  assembly : String
  warnings : List Diagnostic
deriving Repr, Inhabited

/-- A division whose right operand is the literal 0. -/
def Node.dividesByZero (n : Node) : Bool :=
  match n.kind with
  | .binary .div _ ⟨_, _, .intLit value⟩ => value = 0
  | _ => false

/-- The warning for a division by zero. -/
def divisionWarning (n : Node) : Diagnostic :=
  ((Diagnostic.warning .optimization "division by zero").pointAt n.position).addNote
    "this expression throws ArithmeticException at run time"

/-- The warnings for the divisions by zero in a program. -/
def divisionWarnings (root : Node) : List Diagnostic :=
  (root.preorder.filter Node.dividesByZero).map divisionWarning

/-- A tree with its symbol table. -/
def load (raw : RawNode) : Except CompileError (Node × SymbolTable) := do
  let root ← (Node.ofRaw? raw).mapError .tree
  let table ← (SymbolTable.ofTree? root).mapError .symbolTable
  return (root, table)

/-- The raw tree of a text. -/
def parseText (source : String) : Except CompileError RawNode :=
  (parse source).mapError .syntactic

/-- Compile a raw tree. -/
def compileTree (options : CompileOptions) (raw : RawNode) : Except CompileError Compiled := do
  let (root, table) ← load raw
  let errors := analyze table root
  if !options.bestEffort && !errors.isEmpty then throw (.semantic errors)
  let mistakes := errors.map fun e => { e.toDiagnostic with severity := .warning }
  let root ←
    if options.optimize then
      ((MiniJava.optimize table root).map Prod.fst).mapError CompileError.optimization
    else pure root
  let unit ← (lower table root).mapError .lowering
  let assembly ← (Jvm.assemble options.registerLimit unit).mapError .assembly
  return { ir := unit.text, assembly, warnings := mistakes ++ divisionWarnings root }

/-- Compile a text. -/
def compile (options : CompileOptions) (source : String) : Except CompileError Compiled := do
  compileTree options (← parseText source)

/-- Everything there is to say about a text, sorted by position. -/
def check (source : String) : Report :=
  let found : Report :=
    match (do load (← parseText source) : Except CompileError (Node × SymbolTable)) with
    | .ok (root, table) =>
      ⟨(analyze table root).map SemanticError.toDiagnostic ++ divisionWarnings root⟩
    | .error e => ⟨e.diagnostics⟩
  found.sorted

end MiniJava
