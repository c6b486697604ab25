import MiniJava.Ir
import MiniJava.Proofs.Semantics.Value
import MiniJava.Typing

/-!
# The meaning of a method

A method is executed as its tree is written. Operands are computed from the left, each once; a name
means what `Scope.lookup?` says. Calls, allocations, arrays and fields are effects, and nothing but
an assignment to a parameter or local variable changes the variables.

* `Scope.eval` computes an expression. A call may have no value, so the result is an option.
* `Scope.exec` executes a statement, as a function of the number of times that each loop may be
  entered anew; when that does not suffice, the execution is out of fuel.
* `Scope.runBody` is the run of a method: what it shows for each amount of fuel.

An array that is written by its elements is allocated before its elements are computed. So is the
array of the last arguments of a method that takes a row of them; no array is made if there is just
one such argument and it is an array.
-/

namespace MiniJava

/-! ## Effects -/

/-- What a method does beyond its variables. -/
inductive Effect where
  /-- The receiver of a static call is a class. A constructor is called by the name `<init>`. -/
  | call (receiver : Val) (method : String) (arguments : List Val)
  | newObject (className : String)
  /-- Here `type` is that of the array. -/
  | newArray (type : Ir.IrType) (length : Val)
  | arrayLength (array : Val)
  | arrayLoad (array index : Val)
  | arrayStore (array index value : Val)
  | getField (object : Val) (field : String)
  | putField (object : Val) (field : String) (value : Val)
deriving DecidableEq, Repr

namespace World

variable (w : World Effect Val)

/-- Store values in an array from an index on, each as soon as it is computed. -/
def storeFrom (array : Val) (index : Nat) : List (Act Effect Val Val) → Act Effect Val Unit
  | [] => return
  | x :: xs => do
    let v ← x
    let _ ← w.perform (.arrayStore array (.int (.ofNat index)) v)
    storeFrom array (index + 1) xs

/-- A new array of the given values. -/
def pack (type : Ir.IrType) (values : List (Act Effect Val Val)) : Act Effect Val Val := do
  let array ← w.ask (.newArray type (.int (.ofNat values.length)))
  w.storeFrom array 0 values
  return array

end World

/-- Several values one after the other. -/
def Act.inOrder {ε : Type} : List (Act ε Val Val) → Act ε Val (List Val)
  | [] => return []
  | x :: xs => do return (← x) :: (← inOrder xs)

/-! ## Expressions -/

namespace Scope

variable (sc : Scope) (w : World Effect Val)

section Expressions

variable (vars : Vars)

/-- The value of a name. -/
def readName (name : String) : Act Effect Val Val :=
  match sc.lookup? name with
  | some (.imported path) => return .cls (simpleName path)
  | some (.param _ _) | some (.local _) => return vars name
  | some (.field _) => w.ask (.getField w.this name)
  | none => .stop .stuck

/-- The arguments of a call, given the acts that compute them. -/
def passArguments (receiver : Node) (method : String) (arguments : List Node)
    (values : List (Act Effect Val Val)) : Act Effect Val (List Val) := do
  let params := (sc.table.params? method).getD []
  if sc.isLocalReceiver receiver && sc.table.isVarargs method then
    let fixed := min (params.length - 1) arguments.length
    let first ← Act.inOrder (values.take fixed)
    let isSingleArray := match arguments.drop fixed with
      | [a] => ((sc.typeOf? (sc.parameterDemand method fixed) a).map Ty.isArray).getD false
      | _ => false
    if isSingleArray then return first ++ (← Act.inOrder (values.drop fixed))
    else
      let type := (params.getLast?.map fun p => Ir.IrType.ofTy p.type).getD .intArray
      return first ++ [← w.pack type (values.drop fixed)]
  else Act.inOrder values

mutual

/-- The value of an expression of which `demand` is asked. -/
def eval (demand : Ty) : Node → Act Effect Val (Option Val)
  | ⟨_, _, .intLit value⟩ => return some (.int value)
  | ⟨_, _, .boolLit value⟩ => return some (.bool value)
  | ⟨_, _, .varRef name⟩ => do return some (← sc.readName w vars name)
  | ⟨_, _, .this⟩ => return some w.this
  | ⟨_, _, .paren inner⟩ => eval demand inner
  | ⟨_, _, .binary op left right⟩ => do
    let (dl, dr) := sc.operandDemands op left right
    return some (← op.apply (eval dl left).need (eval dr right).need)
  | ⟨_, _, .unary .not operand⟩ => do
    let v ← (eval .boolean operand).need
    return some (← v.not)
  | ⟨_, _, .arrayAccess array index⟩ => do
    let a ← (eval .intArray array).need
    let i ← (eval .int index).need
    return some (← w.ask (.arrayLoad a i))
  | ⟨_, _, .arrayLength array⟩ => do
    let a ← (eval .intArray array).need
    return some (← w.ask (.arrayLength a))
  | ⟨_, _, .newObject className⟩ => do
    let v ← w.ask (.newObject className)
    let _ ← w.perform (.call v "<init>" [])
    return some v
  | ⟨_, _, .newArray element size⟩ => do
    let n ← (eval .int size).need
    return some (← w.ask (.newArray (.ofTy (Ty.ofExpr element).array) n))
  | ⟨i, p, .arrayLit elements⟩ => do
    let type := ((sc.typeOf? demand ⟨i, p, .arrayLit elements⟩).map Ir.IrType.ofTy).getD .intArray
    return some (← w.pack type (evalEach (sc.elementDemands elements) elements))
  | ⟨_, _, .call receiver method arguments⟩ => do
    let target ← (eval .object receiver).need
    let passed ← sc.passArguments w receiver method arguments
      (evalEach (sc.argumentDemands receiver method arguments) arguments)
    w.perform (.call target method passed)
  | _ => .stop .stuck
termination_by structural n => n

/-- The values of several expressions, each with what is demanded of it. -/
def evalEach (demands : List Ty) : List Node → List (Act Effect Val Val)
  | [] => []
  | n :: ns => (eval (demands.head?.getD .int) n).need :: evalEach demands.tail ns
termination_by structural ns => ns

end

end Expressions

end Scope

/-! ## Statements -/

/-- What the execution of a statement comes to. -/
inductive Flow where
  /-- The next statement is executed, with these values of the variables. -/
  | next (vars : Vars) (trace : List Effect)
  /-- The method has ended. -/
  | finished (ending : Ending Val) (trace : List Effect)
  | outOfFuel (trace : List Effect)

/-- Execute a statement, and another behind it. -/
def Flow.andThen : Flow → (Vars → List Effect → Flow) → Flow
  | next vars h, k => k vars h
  | finished o h, _ => finished o h
  | outOfFuel h, _ => outOfFuel h

/-- Compute a value and go on with it. -/
def Act.goOn {β : Type} (x : Act Effect Val β) (h : List Effect) (k : β → List Effect → Flow) :
    Flow :=
  match x.run h with
  | (.ok b, h') => k b h'
  | (.error o, h') => .finished o h'

/-- A loop that may be entered so many times as the first argument says. -/
def loop (test : Vars → Act Effect Val Bool) (body : Vars → List Effect → Flow) :
    Nat → Vars → List Effect → Flow
  | 0, _, h => .outOfFuel h
  | fuel + 1, vars, h =>
    (test vars).goOn h fun b h' =>
      if b then (body vars h').andThen (loop test body fuel) else .next vars h'

namespace Scope

variable (sc : Scope) (w : World Effect Val)

/-- The truth value of a condition. -/
def evalCondition (condition : Node) (vars : Vars) : Act Effect Val Bool := do
  (← (sc.eval w vars .boolean condition).need).truth

/-- Give a name a value. -/
def writeName (name : String) (v : Val) (vars : Vars) : Act Effect Val Vars := do
  match sc.lookup? name with
  | some (.param _ _) | some (.local _) => return vars.set name v
  | some (.field _) =>
    let _ ← w.perform (.putField w.this name v)
    return vars
  | some (.imported _) | none => .stop .stuck

/-- The array that a name holds. -/
def readArrayName (name : String) (vars : Vars) : Act Effect Val Val :=
  match sc.lookup? name with
  | some (.imported _) => .stop .stuck
  | _ => sc.readName w vars name

mutual

/-- Execute a statement. -/
def exec (fuel : Nat) : Node → Vars → List Effect → Flow
  | ⟨_, _, .assign target value⟩, vars, h =>
    (do sc.writeName w target (← (sc.eval w vars (sc.targetDemand target) value).need) vars).goOn h
      .next
  | ⟨_, _, .arrayAssign target index value⟩, vars, h =>
    (do
      let a ← sc.readArrayName w target vars
      let i ← (sc.eval w vars .int index).need
      let v ← (sc.eval w vars (sc.elementDemand target) value).need
      w.perform (.arrayStore a i v)).goOn h fun _ => .next vars
  | ⟨_, _, .returning none⟩, _, h => .finished (.returned none) h
  | ⟨_, _, .returning (some value)⟩, vars, h =>
    (sc.eval w vars sc.resultDemand value).need.goOn h fun v => .finished (.returned (some v))
  | ⟨_, _, .ifElse condition thenBranch none⟩, vars, h =>
    (sc.evalCondition w condition vars).goOn h fun b h' =>
      if b then exec fuel thenBranch vars h' else .next vars h'
  | ⟨_, _, .ifElse condition thenBranch (some elseBranch)⟩, vars, h =>
    (sc.evalCondition w condition vars).goOn h fun b h' =>
      if b then exec fuel thenBranch vars h' else exec fuel elseBranch vars h'
  | ⟨_, _, .whileLoop condition body⟩, vars, h =>
    loop (sc.evalCondition w condition) (exec fuel body) fuel vars h
  | ⟨_, _, .block statements⟩, vars, h => execAll fuel statements vars h
  | ⟨_, _, .exprStmt e⟩, vars, h => (sc.eval w vars .void e).goOn h fun _ => .next vars
  | _, _, h => .finished .stuck h
termination_by structural n => n

/-- Execute statements that follow each other. -/
def execAll (fuel : Nat) : List Node → Vars → List Effect → Flow
  | [], vars, h => .next vars h
  | n :: ns, vars, h => (exec fuel n vars h).andThen (execAll fuel ns)
termination_by structural ns => ns

end

/-! ## Methods -/

/-- What the run of a method shows: a method without result returns at its end, another must not get
there. -/
def finish (result : Ty) : Flow → Observation Effect Val
  | .next _ h => .finished (if Ir.IrType.ofTy result = .void then .returned none else .stuck) h
  | .finished o h => .finished o h
  | .outOfFuel h => .running h

/-- The run of a method body. -/
def runBody (result : Ty) (body : List Node) (vars : Vars) (fuel : Nat) : Observation Effect Val :=
  finish result (sc.execAll w fuel body vars [])

end Scope

/-- The run of a method from given values of its variables. -/
def Node.runMethod (table : SymbolTable) (w : World Effect Val) (vars : Vars) (n : Node) :
    Nat → Observation Effect Val :=
  match n.kind with
  | .methodDecl head _ _ body =>
    (Scope.ofMethod table head).runBody w (.ofExpr head.returnType) body vars
  | _ => fun _ => .finished .stuck []

end MiniJava
