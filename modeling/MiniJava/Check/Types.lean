import MiniJava.Check.Walk
import MiniJava.Typing.Compatible

/-!
# Rules of typing

The rules of the `TypeChecker`: operators, conditions, indices, arrays, assignments and results must
have fitting types. What has no type is passed over: the check of names reports it.
-/

namespace MiniJava

namespace Scope

variable (sc : Scope)

/-- The operands of a binary operator have one type, no array, and the operator takes it. -/
def checkOperands (n : Node) (op : BinaryOp) (left right : Node) : List SemanticError :=
  let (dl, dr) := sc.operandDemands op left right
  match sc.typeOf? dl left, sc.typeOf? dr right with
  | some l, some r =>
    if l ≠ r || l.isArray then [n.violates (.binaryOperandMismatch l.text r.text)]
    else
      let fits :=
        if op.isArithmetic || op.isRelational then l.isInt
        else if op.isLogical then l.isBoolean
        else !l.isVoid
      if fits then [] else [n.violates (.invalidOperand op.symbol l.text)]
  | _, _ => []

/-- A condition is a truth value. -/
def checkCondition (construct : Construct) (condition : Node) : List SemanticError :=
  match sc.typeOf? .boolean condition with
  | some t => if t.isBoolean then [] else [condition.violates (.conditionNotBoolean construct)]
  | none => []

/-- An index is an integer. -/
def checkIndex (index : Node) : List SemanticError :=
  match sc.typeOf? .int index with
  | some t => if t.isInt then [] else [index.violates (.indexNotInteger t.text)]
  | none => []

/-- Only arrays have elements and a length. -/
def checkArray (array : Node) : List SemanticError :=
  match sc.typeOf? .intArray array with
  | some t => if t.isArray then [] else [array.violates (.notAnArray array.describe)]
  | none => []

/-- The elements of an array literal have one type, which is no array. -/
def checkElements (n : Node) (elements : List Node) : List SemanticError :=
  let types := elements.zipWith (fun e d => sc.typeOf? d e) (sc.elementDemands elements)
  let mixed := (types.zip types.tail).any fun (a, b) => a ≠ b
  let nested := types.any fun t => (t.map Ty.isArray).getD false
  if mixed || nested then [n.violates .arrayCreationMismatch] else []

/-- What one node does wrong in a scope. -/
def checkTypesAt (n : Node) : List SemanticError :=
  match n.kind with
  | .binary op left right => sc.checkOperands n op left right
  | .unary op operand =>
    match sc.typeOf? .boolean operand with
    | some t => if t.isBoolean then [] else [n.violates (.invalidOperand op.symbol t.text)]
    | none => []
  | .ifElse condition _ _ => sc.checkCondition .ifElse condition
  | .whileLoop condition _ => sc.checkCondition .whileLoop condition
  | .assign target value =>
    match sc.variableType? target, sc.typeOf? (sc.targetDemand target) value with
    | some expected, some found =>
      if sc.table.assignable expected found then []
      else [n.violates (.assignmentMismatch target expected.text found.text)]
    | _, _ => []
  | .arrayAssign target index value =>
    sc.checkIndex index ++
      match sc.variableType? target with
      | none => []
      | some array =>
        if !array.isArray then [n.violates (.notAnArray target)]
        else
          match sc.typeOf? (sc.elementDemand target) value with
          | some found =>
            if sc.table.assignable array.element found then []
            else [n.violates (.arrayElementMismatch target)]
          | none => []
  | .arrayAccess array index => sc.checkArray array ++ sc.checkIndex index
  | .arrayLength array => sc.checkArray array
  | .arrayLit elements => sc.checkElements n elements
  | .returning value =>
    match sc.table.returnType? sc.method with
    | none => []
    | some expected =>
      let found := match value with
        | some v => sc.typeOf? sc.resultDemand v
        | none => some .void
      match found with
      | some found =>
        if sc.table.assignable expected found then []
        else [n.violates (.returnMismatch sc.method expected.text found.text)]
      | none => []
  | _ => []

end Scope

/-- The rules of typing that a program breaks. -/
def checkTypes (scopeOf : ScopeOf) (root : Node) : List SemanticError :=
  (walk scopeOf root).flatMap fun
    | (some sc, n) => sc.checkTypesAt n
    | (none, _) => []

end MiniJava
