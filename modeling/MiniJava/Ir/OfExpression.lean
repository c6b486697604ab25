import MiniJava.Ir.Lowering

/-!
# Three-address code for expressions

Each operation stores its result in a fresh temporary variable (`lower_expr`). `a && b` and `a || b`
jump over the code for `b` when `a` decides the value (`lower_and`, `lower_or`). A call
(`lower_call`) on the name of an import is static, any other goes by the class of the receiver. The
last arguments of a method that takes a row of them are packed into an array (`lower_args`), unless
there is just one and it is an array already.

The code for an expression is made from the code for its parts; `lowerEach` gives that for a row of
expressions, one lowering each, so that a call can decide in which order and whether packed.
-/

namespace MiniJava.Ir

/-- The operation for an operator; the logical ones have none. -/
def BinOp.ofOperator? : BinaryOp → Option BinOp
  | .add => some .add
  | .sub => some .sub
  | .mul => some .mul
  | .div => some .div
  | .lt => some .lt
  | .gt => some .gt
  | .le => some .le
  | .ge => some .ge
  | .eq => some .eq
  | .ne => some .ne
  | .and | .or => none

namespace Lower

/-- The conjunction `a && b`: only if `a` is true, `b` is computed. -/
def conjunction (a b : Lower Value) : Lower Value := do
  let n ← label .and
  let trueLabel := "and_true_" ++ toString n
  let endLabel := "and_end_" ++ toString n
  let result ← temp .boolean
  let a ← a
  let b ← b
  return ⟨.var result,
    a.code ++
    [.branch a.operand trueLabel,
      .assign result (.single (.bool false)),
      .goto endLabel,
      .label trueLabel] ++
    b.code ++
    [.assign result (.single b.operand),
      .label endLabel]⟩

/-- The disjunction `a || b`: only if `a` is false, `b` is computed. -/
def disjunction (a b : Lower Value) : Lower Value := do
  let n ← label .or
  let trueLabel := "or_true_" ++ toString n
  let endLabel := "or_end_" ++ toString n
  let result ← temp .boolean
  let a ← a
  let b ← b
  return ⟨.var result,
    a.code ++
    [.branch a.operand trueLabel] ++
    b.code ++
    [.assign result (.single b.operand),
      .goto endLabel,
      .label trueLabel,
      .assign result (.single (.bool true)),
      .label endLabel]⟩

/-- A binary operator. -/
def binary (op : BinaryOp) (a b : Lower Value) : Lower Value := do
  match BinOp.ofOperator? op, op with
  | some op, _ =>
    let a ← a
    let b ← b
    assignTemp (a.code ++ b.code) (.binary op a.operand b.operand)
  | none, .and => conjunction a b
  | none, _ => disjunction a b

end Lower

end MiniJava.Ir

namespace MiniJava.Scope

open Ir

variable (sc : Scope)

/-- The object whose method is running. -/
def thisOperand : Operand := .this sc.table.className

/-- The error for a name that means nothing. -/
def unresolved (name : String) (p : Position) : LoweringError :=
  .unresolvedVariable name sc.method p

/-- The value of a name. -/
def lowerName (name : String) (p : Position) : Lower Value := do
  match sc.lookup? name with
  | some (.imported path) => return ⟨.classRef (simpleName path), []⟩
  | some (.param _ t) | some (.local t) => return ⟨.var ⟨name, .ofTy t⟩, []⟩
  | some (.field t) => Lower.assignTemp [] (.getField sc.thisOperand ⟨name, .ofTy t⟩)
  | none => throw (sc.unresolved name p)

/-! ## Calls -/

/-- The class that a receiver names, if it is the name of an import. -/
def staticReceiver? (receiver : Node) : Option String :=
  match receiver.kind with
  | .varRef name =>
    match sc.lookup? name with
    | some (.imported path) => some (simpleName path)
    | _ => none
  | _ => none

/-- The types of the parameters, for a method of the program that takes so many operands. -/
def declaredParams? (receiver : Node) (method : String) (arity : Nat) : Option (List IrType) :=
  if sc.isLocalReceiver receiver then
    match sc.table.params? method with
    | some params =>
      if params.length = arity then some (params.map fun p => .ofTy p.type) else none
    | none => none
  else none

/-- The operands for the arguments of a call; `values` are the lowerings of `arguments`. -/
def lowerArguments (receiver : Node) (method : String) (arguments : List Node)
    (values : List (Lower Value)) : Lower (List Operand × Code) := do
  let params := (sc.table.params? method).getD []
  if sc.isLocalReceiver receiver && sc.table.isVarargs method then
    let fixed := min (params.length - 1) arguments.length
    let (operands, code) ← Lower.inOrder (values.take fixed)
    let demand := sc.parameterDemand method fixed
    let isSingleArray := match arguments.drop fixed with
      | [a] => ((sc.typeOf? demand a).map Ty.isArray).getD false
      | _ => false
    if isSingleArray then
      let (last, code') ← Lower.inOrder (values.drop fixed)
      return (operands ++ last, code ++ code')
    else
      let t := (params.getLast?.map fun p => IrType.ofTy p.type).getD .intArray
      let (array, code') ← Lower.packArray t (values.drop fixed)
      return (operands ++ [.var array], code ++ code')
  else Lower.inOrder values

/-- A call that returns this type, with the code for its receiver and arguments; `target` is the
lowering of the receiver and `values` are those of the arguments. -/
def lowerCall (type : IrType) (receiver : Node) (method : String) (arguments : List Node)
    (target : Lower Value) (values : List (Lower Value)) : Lower (Call × Code) := do
  let (invocation, target) ← match sc.staticReceiver? receiver with
    | some className => pure (Invocation.static, Value.mk (.classRef className) [])
    | none => do pure (Invocation.virtual, ← target)
  let (operands, code) ← sc.lowerArguments receiver method arguments values
  return (
    { invocation
      target := target.operand
      method
      arguments := operands
      returnType := type
      paramTypes := sc.declaredParams? receiver method operands.length },
    target.code ++ code)

/-- A call that returns the type that was found for it. The type is asked for when the receiver and
the arguments are lowered, so their failures come first. -/
def lowerCallOf (type? : Option Ty) (known : type? ≠ none) (p : Position) (receiver : Node)
    (method : String) (arguments : List Node) (target : Lower Value)
    (values : List (Lower Value)) : Lower (Call × Code) :=
  match type?, known with
  | some t, _ => sc.lowerCall (.ofTy t) receiver method arguments target values
  | none, known => do
    let _ ← sc.lowerCall .void receiver method arguments target values
    throw (.unknownType ("the call to '" ++ method ++ "'") p (known rfl).elim)

/-! ## Expressions -/

mutual

/-- The value of an expression of which `demand` is asked. -/
def lowerExpr (demand : Ty) : Node → Lower Value
  | ⟨_, _, .intLit value⟩ => return ⟨.int value, []⟩
  | ⟨_, _, .boolLit value⟩ => return ⟨.bool value, []⟩
  | ⟨_, p, .varRef name⟩ => sc.lowerName name p
  | ⟨_, _, .this⟩ => return ⟨sc.thisOperand, []⟩
  | ⟨_, _, .paren inner⟩ => lowerExpr demand inner
  | ⟨_, _, .binary op left right⟩ =>
    let (dl, dr) := sc.operandDemands op left right
    Lower.binary op (lowerExpr dl left) (lowerExpr dr right)
  | ⟨_, _, .unary .not operand⟩ => do
    let v ← lowerExpr .boolean operand
    Lower.assignTemp v.code (.not v.operand)
  | ⟨_, _, .arrayAccess array index⟩ => do
    let (x, code) ← Lower.toVar (← lowerExpr .intArray array)
    let i ← lowerExpr .int index
    Lower.assignTemp (code ++ i.code) (.arrayLoad x i.operand)
  | ⟨_, _, .arrayLength array⟩ => do
    let (x, code) ← Lower.toVar (← lowerExpr .intArray array)
    Lower.assignTemp code (.arrayLength x)
  | ⟨_, _, .newObject className⟩ => do
    let v ← Lower.assignTemp [] (.newObject className)
    return ⟨v.operand, v.code ++ [.call (.construct v.operand)]⟩
  | ⟨_, _, .newArray element size⟩ => do
    let v ← lowerExpr .int size
    Lower.assignTemp v.code (.newArray v.operand (.ofTy (Ty.ofExpr element).array))
  | ⟨i, p, .arrayLit elements⟩ => do
    let t := ((sc.typeOf? demand ⟨i, p, .arrayLit elements⟩).map IrType.ofTy).getD .intArray
    let (array, code) ← Lower.packArray t (lowerEach (sc.elementDemands elements) elements)
    return ⟨.var array, code⟩
  | ⟨i, p, .call receiver method arguments⟩ => do
    let type? := sc.typeOf? demand ⟨i, p, .call receiver method arguments⟩
    let known : type? ≠ none := sc.typeOf?_call_ne_none _ _ _ _ _ _
    let (call, code) ← sc.lowerCallOf type? known p receiver method arguments
      (lowerExpr .object receiver)
      (lowerEach (sc.argumentDemands receiver method arguments) arguments)
    if call.returnType = .void then throw (.voidValue method p)
    Lower.assignTemp code (.call call)
  | n => throw (.unexpectedNode .expression n.kind.label)
termination_by structural n => n

/-- The lowerings of several expressions, each with what is demanded of it. -/
def lowerEach (demands : List Ty) : List Node → List (Lower Value)
  | [] => []
  | n :: ns => lowerExpr (demands.head?.getD .int) n :: lowerEach demands.tail ns
termination_by structural ns => ns

end

end MiniJava.Scope
