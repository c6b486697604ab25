import MiniJava.Ir.OfExpression

/-!
# Three-address code for a program

A program is lowered method by method (`lower`, `lower_method`), and a method statement by statement
(`lower_stmt`). Control flow becomes "jump if the condition is true":

* `if`: the branch to `if_then_N` is followed by the code for `else`, a jump to `if_end_N`, and
  behind the label `if_then_N` the code for the other case. The jump is left out behind code that
  does not go on.
* `while`: `while_cond_N` computes the condition, a branch goes to `while_body_N` and else a jump to
  `while_end_N`; the body ends with a jump to `while_cond_N`.

The names of temporary variables and labels are unique in the whole class.
-/

namespace MiniJava

open Ir

namespace Scope

variable (sc : Scope)

/-! ## Assignments -/

/-- Code that ends by computing the operand of a value, made to compute it into `dest` instead. -/
def retarget? (dest : Var) (v : Value) : Option Code :=
  match v.code.getLast? with
  | some (.assign last rhs) =>
    if v.operand = .var last then some (v.code.dropLast ++ [.assign dest rhs]) else none
  | _ => none

/-- The code for an assignment to a name. -/
def lowerAssign (target : String) (p : Position) (value : Lower Value) : Lower Code := do
  let v ← value
  match sc.lookup? target with
  | some (.param _ t) | some (.local t) =>
    let dest : Var := ⟨target, .ofTy t⟩
    return (retarget? dest v).getD (v.code ++ [.assign dest (.single v.operand)])
  | some (.field t) => return v.code ++ [.putField sc.thisOperand ⟨target, .ofTy t⟩ v.operand]
  | some (.imported _) => throw (.invalidAssignTarget target p)
  | none => throw (sc.unresolved target p)

/-- The array that a name holds, with the code to get it. -/
def lowerArrayName (target : String) (p : Position) : Lower (Var × Code) := do
  match sc.lookup? target with
  | some (.param _ t) | some (.local t) => return (⟨target, .ofTy t⟩, [])
  | some (.field t) =>
    let dest ← Lower.temp (.ofTy t)
    return (dest, [.assign dest (.getField sc.thisOperand ⟨target, .ofTy t⟩)])
  | some (.imported _) => throw (.invalidAssignTarget target p)
  | none => throw (sc.unresolved target p)

/-! ## Statements -/

/-- The code for an expression whose value is dropped. A call may have none. -/
def lowerDropped : Node → Lower Code
  | ⟨_, _, .paren inner⟩ => lowerDropped inner
  | ⟨i, p, .call receiver method arguments⟩ => do
    let type? := sc.typeOf? .void ⟨i, p, .call receiver method arguments⟩
    let known : type? ≠ none := sc.typeOf?_call_ne_none _ _ _ _ _ _
    let (call, code) ← sc.lowerCallOf type? known p receiver method arguments
      (sc.lowerExpr .object receiver)
      (sc.lowerEach (sc.argumentDemands receiver method arguments) arguments)
    return code ++ [.call call]
  | n => do return (← sc.lowerExpr .void n).code
termination_by structural n => n

/-- Code that goes on behind `code` jumps to a label. -/
def closeWith (code : Code) (target : String) : Code :=
  if (code.getLast?.map Instr.isTerminator).getD false then code else code ++ [.goto target]

mutual

/-- The code for a statement. -/
def lowerStmt : Node → Lower Code
  | ⟨_, p, .assign target value⟩ =>
    sc.lowerAssign target p (sc.lowerExpr (sc.targetDemand target) value)
  | ⟨_, p, .arrayAssign target index value⟩ => do
    let (array, code) ← sc.lowerArrayName target p
    let i ← sc.lowerExpr .int index
    let v ← sc.lowerExpr (sc.elementDemand target) value
    return code ++ i.code ++ v.code ++ [.arrayStore array i.operand v.operand]
  | ⟨_, _, .returning none⟩ => return [.ret none]
  | ⟨_, _, .returning (some value)⟩ => do
    let v ← sc.lowerExpr sc.resultDemand value
    return v.code ++ [.ret (some v.operand)]
  | ⟨_, _, .ifElse condition thenBranch none⟩ => do
    let n ← Lower.label .ifElse
    let thenLabel := "if_then_" ++ toString n
    let endLabel := "if_end_" ++ toString n
    let c ← sc.lowerExpr .boolean condition
    let thenCode ← lowerStmt thenBranch
    return c.code ++ [.branch c.operand thenLabel, .goto endLabel, .label thenLabel] ++ thenCode ++
      [.label endLabel]
  | ⟨_, _, .ifElse condition thenBranch (some elseBranch)⟩ => do
    let n ← Lower.label .ifElse
    let thenLabel := "if_then_" ++ toString n
    let endLabel := "if_end_" ++ toString n
    let c ← sc.lowerExpr .boolean condition
    let elseCode ← lowerStmt elseBranch
    let thenCode ← lowerStmt thenBranch
    return c.code ++ closeWith (.branch c.operand thenLabel :: elseCode) endLabel ++
      [.label thenLabel] ++ thenCode ++ [.label endLabel]
  | ⟨_, _, .whileLoop condition body⟩ => do
    let n ← Lower.label .whileLoop
    let condLabel := "while_cond_" ++ toString n
    let bodyLabel := "while_body_" ++ toString n
    let endLabel := "while_end_" ++ toString n
    let c ← sc.lowerExpr .boolean condition
    let bodyCode ← lowerStmt body
    return [.label condLabel] ++ c.code ++
      [.branch c.operand bodyLabel, .goto endLabel, .label bodyLabel] ++ bodyCode ++
      [.goto condLabel, .label endLabel]
  | ⟨_, _, .block statements⟩ => lowerStmts statements
  | ⟨_, _, .exprStmt e⟩ => sc.lowerDropped e
  | n => throw (.unexpectedNode .statement n.kind.label)
termination_by structural n => n

/-- The code for statements that follow each other. -/
def lowerStmts : List Node → Lower Code
  | [] => return []
  | n :: ns => do return (← lowerStmt n) ++ (← lowerStmts ns)
termination_by structural ns => ns

end

end Scope

/-! ## Declarations -/

/-- A parameter. -/
def lowerParam (n : Node) : Lower Var :=
  match n.kind with
  | .param name type => return ⟨name, .ofTy (.ofExpr type)⟩
  | k => throw (.unexpectedNode .param k.label)

/-- The code of a method. A method without result returns at its end. -/
def lowerMethod (scopeOf : MethodHead → Scope) (n : Node) : Lower Method := do
  match n.kind with
  | .methodDecl head params _ body =>
    let params ← params.mapM lowerParam
    let returnType := IrType.ofTy (.ofExpr head.returnType)
    let code ← (scopeOf head).lowerStmts body
    let returns := match code.getLast? with
      | some (.ret _) => true
      | _ => false
    let code := if returnType = .void && !returns then code ++ [.ret none] else code
    return {
      name := head.name
      isPublic := head.isPublic
      isStatic := head.isStatic
      params
      returnType
      code }
  | k => throw (.unexpectedNode .method k.label)

/-- The code of the methods of a program, when `scopeOf` gives the scopes. -/
def lowerWith (scopeOf : MethodHead → Scope) (t : SymbolTable) (root : Node) :
    Except LoweringError ClassUnit := do
  let methods ← (root.methods.mapM (lowerMethod scopeOf)).run' (.ofTable t)
  return {
    imports := t.imports
    name := t.className
    superclass := t.superclass
    fields := t.fields.map fun f => ⟨f.name, .ofTy f.type⟩
    methods }

/-- The three-address code of a program, given its symbol table. -/
def lower (t : SymbolTable) (root : Node) : Except LoweringError ClassUnit :=
  lowerWith (Scope.ofMethod t) t root

end MiniJava
