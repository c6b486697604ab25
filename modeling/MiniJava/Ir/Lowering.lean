import MiniJava.Diagnostic
import MiniJava.Ir
import MiniJava.Ir.Supply
import MiniJava.Typing

/-!
# Lowerings

A `Lower α` makes an `α` with names from a supply, or fails. The value of an expression is an
operand together with the code that has to run before the operand is used (`ExprResult`).
-/

namespace MiniJava.Ir

/-- What a node was expected to be. -/
inductive ExpectedNode where
  | method
  | param
  | statement
  | expression
deriving DecidableEq, Repr, Inhabited

/-- The words for what was expected. -/
def ExpectedNode.describe : ExpectedNode → String
  | method => "a method declaration"
  | param => "a parameter"
  | statement => "a statement"
  | expression => "an expression"

/-- Why a program has no three-address code. -/
inductive LoweringError where
  | unresolvedVariable (name method : String) (position : Position)
  | invalidAssignTarget (name : String) (position : Position)
  | voidValue (method : String) (position : Position)
  /-- The type of a call is not known. A call always has one, so there is no such failure. -/
  | unknownType (construct : String) (position : Position) (never : Empty)
  | unexpectedNode (expected : ExpectedNode) (found : Label)
deriving DecidableEq, Repr, Inhabited

namespace LoweringError

/-- The message for a failed lowering. -/
def message : LoweringError → String
  | unresolvedVariable name method _ =>
    "cannot lower unresolved variable '" ++ name ++ "' in method '" ++ method ++ "'"
  | invalidAssignTarget name _ => "cannot assign to '" ++ name ++ "'"
  | voidValue method _ => "call to void method '" ++ method ++ "' used as a value"
  | unknownType construct _ _ => "cannot determine the type of " ++ construct
  | unexpectedNode expected found =>
    "expected " ++ expected.describe ++ ", found " ++ found.name

/-- Where a lowering failed. -/
def position : LoweringError → Position
  | unresolvedVariable _ _ p | invalidAssignTarget _ p | voidValue _ p | unknownType _ p _ => p
  | unexpectedNode _ _ => .unknown

/-- The diagnostic for a failed lowering. -/
def toDiagnostic (e : LoweringError) : Diagnostic :=
  (Diagnostic.error .lowering e.message).pointAt e.position

end LoweringError

/-- Something made with fresh names, or a failure. -/
abbrev Lower := StateT Supply (Except LoweringError)

/-- An operand, and the code to run before it is used. -/
structure Value where
  operand : Operand
  code : Code := []
deriving Repr, Inhabited

namespace Lower

/-- A fresh temporary variable. -/
def temp (t : IrType) : Lower Var := do
  let (name, supply) := (← get).temp
  set supply
  return ⟨name, t⟩

/-- A fresh number for labels. -/
def label (k : LabelKind) : Lower Nat := do
  let (n, supply) := (← get).label k
  set supply
  return n

/-- The value of an operation behind some code, in a fresh temporary variable. -/
def assignTemp (code : Code) (rhs : Rhs) : Lower Value := do
  let dest ← temp rhs.type
  return ⟨.var dest, code ++ [.assign dest rhs]⟩

/-- A value in a variable, where no other operand will do. -/
def toVar (v : Value) : Lower (Var × Code) := do
  match v.operand with
  | .var x => return (x, v.code)
  | operand =>
    let dest ← temp operand.type
    return (dest, v.code ++ [.assign dest (.single operand)])

/-- Several values one after the other: the operands, and the code for all of them. -/
def inOrder : List (Lower Value) → Lower (List Operand × Code)
  | [] => return ([], [])
  | v :: vs => do
    let v ← v
    let (operands, code) ← inOrder vs
    return (v.operand :: operands, v.code ++ code)

/-- Store values in an array from an index on. -/
def storeFrom (array : Var) (index : Nat) : List (Lower Value) → Lower Code
  | [] => return []
  | v :: vs => do
    let v ← v
    let code ← storeFrom array (index + 1) vs
    return v.code ++ .arrayStore array (.int (.ofNat index)) v.operand :: code

/-- An array of the given values. -/
def packArray (t : IrType) (values : List (Lower Value)) : Lower (Var × Code) := do
  let array ← temp t
  let code ← storeFrom array 0 values
  return (array, .assign array (.newArray (.int (.ofNat values.length)) t) :: code)

end Lower

end MiniJava.Ir
