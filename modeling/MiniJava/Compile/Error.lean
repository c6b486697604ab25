import MiniJava.Check.Violation
import MiniJava.Grammar
import MiniJava.Ir.Lowering
import MiniJava.Jvm.OfIr
import MiniJava.Optimize
import MiniJava.SymbolTable.OfTree
import MiniJava.Tree.OfRaw

/-!
# Why a compilation fails

Each stage fails in its own way. A `CompileError` says which stage and how; its message names the
stage, and its diagnostics are those of the errors of the stage.
-/

namespace MiniJava

/-- A failed compilation. -/
inductive CompileError where
  | syntactic (errors : List SyntaxError)
  | tree (error : TreeError)
  | symbolTable (error : SymbolTableError)
  | semantic (errors : List SemanticError)
  | optimization (error : NoFixpoint)
  | lowering (error : Ir.LoweringError)
  | assembly (error : Jvm.EmitError)
deriving Repr, Inhabited

namespace CompileError

/-- Messages on numbered lines. -/
def numbered (messages : List String) : String :=
  String.intercalate "\n"
    (messages.zipIdx.map fun (m, i) => "  " ++ toString (i + 1) ++ ". " ++ m)

/-- The message for a failed compilation. -/
def message : CompileError → String
  | syntactic errors => "Syntax errors:\n" ++ numbered (errors.map SyntaxError.message)
  | tree e => "Malformed syntax tree: " ++ e.message
  | symbolTable e => "Symbol table error: " ++ e.message
  | semantic errors => "Semantic errors:\n" ++ numbered (errors.map SemanticError.message)
  | optimization e => "Optimization error: " ++ e.message
  | lowering e => "OLLIR generation error: " ++ e.message
  | assembly e => "Jasmin generation error: " ++ e.message

/-- The stage that failed. -/
def stage : CompileError → Stage
  | syntactic _ | tree _ => .syntactic
  | symbolTable _ | semantic _ => .semantic
  | optimization _ => .optimization
  | lowering _ => .lowering
  | assembly _ => .assembly

/-- The diagnostics for a failed compilation. -/
def diagnostics : CompileError → List Diagnostic
  | syntactic errors => errors.map SyntaxError.toDiagnostic
  | tree e => [.error .syntactic e.message]
  | symbolTable e => [.error .semantic e.message]
  | semantic errors => errors.map SemanticError.toDiagnostic
  | optimization e => [.error .optimization e.message]
  | lowering e => [e.toDiagnostic]
  | assembly e => [e.toDiagnostic]

/-- The diagnostics, which name the file if there is one. -/
def diagnosticsIn (e : CompileError) (file : Option String) : List Diagnostic :=
  match file with
  | some path => e.diagnostics.map fun d => { d with file := some path }
  | none => e.diagnostics

end CompileError

end MiniJava
