import MiniJava.SymbolTable
import MiniJava.Tree

/-!
# The types of expressions

Inside a method a name means, in this order: an imported class, a parameter, a field (not in a
static method), or a local variable. `Scope.lookup?` (`lookup_variable`) finds which. A `Scope` is a
`TypeResolver` with its `MethodContext`.

The type of an expression follows from its parts (`resolve`), with one exception. The compiler
cannot see methods of other classes, so the type of a call to one is what the place of the call asks
for (`call_context_type`): the type of the variable that the result is assigned to, `boolean` under
a condition, and so on. Therefore `Scope.typeOf?` takes the *demand* of the place as an argument,
and `Scope.demands` tells what a node demands of each of its children. Parentheses pass on what is
demanded of them.
-/

namespace MiniJava

/-! ## Names -/

/-- What a name means. -/
inductive Binding where
  | imported (path : String)
  | param (index : Nat) (type : Ty)
  | field (type : Ty)
  | local (type : Ty)
deriving DecidableEq, Repr, Inhabited

namespace Binding

/-- The type that a name stands for. -/
def type : Binding → Ty
  | imported path => .ofClass (simpleName path)
  | param _ t | field t | .local t => t

/-- A variable of the method: a parameter or a local. -/
def isMethodVariable : Binding → Bool
  | param _ _ | .local _ => true
  | _ => false

end Binding

/-- Where an expression stands: in which method of which program. -/
structure Scope where
  table : SymbolTable
  method : String
  isStatic : Bool
  /-- What is demanded of a call, by its number, where a node may stand at several places. In a tree
  this is missing: there the demand is handed down from above. -/
  placed : Option (Nat → Ty) := none

namespace Scope

/-- The scope of a method declaration. -/
def ofMethod (table : SymbolTable) (head : MethodHead) : Scope :=
  { table, method := head.name, isStatic := head.isStatic }

/-- What a name means. -/
def lookup? (sc : Scope) (name : String) : Option Binding :=
  match sc.table.qualifiedImport? name with
  | some path => some (.imported path)
  | none =>
    let params := (sc.table.params? sc.method).getD []
    match params.zipIdx.find? (·.1.name == name) with
    | some (p, i) => some (.param i p.type)
    | none =>
      match if sc.isStatic then none else sc.table.field? name with
      | some f => some (.field f.type)
      | none =>
        (((sc.table.locals? sc.method).getD []).find? (·.name == name)).map (.local ·.type)

/-- The type that a name stands for. -/
def variableType? (sc : Scope) (name : String) : Option Ty := (sc.lookup? name).map Binding.type

end Scope

/-! ## Expressions -/

/-- A call, perhaps in parentheses. -/
def Node.isCall : Node → Bool
  | ⟨_, _, .call _ _ _⟩ => true
  | ⟨_, _, .paren inner⟩ => inner.isCall
  | _ => false
termination_by structural n => n

namespace Scope

variable (sc : Scope)

/-- The type of an expression that shows in its kind, whatever the types of its children. -/
def ownType? {α : Type} : Kind α → Option Ty
  | .intLit _ | .arrayLength _ => some .int
  | .boolLit _ => some .boolean
  | .varRef name => sc.variableType? name
  | .binary op _ _ => some (if op.isArithmetic then .int else .boolean)
  | .newObject className => some (.ofClass className)
  | .newArray element _ => some (Ty.ofExpr element).array
  | .arrayLit [] => some .intArray
  | .this => some sc.table.classType
  | _ => none

/-- What a call returns if its receiver has this type: only the methods of the program are known. -/
def knownReturn? (receiver : Option Ty) (method : String) : Option Ty :=
  if receiver = some sc.table.classType then sc.table.returnType? method else none

mutual

/-- The type of an expression of which `demand` is asked; statements, declarations and unknown names
have none. -/
def typeOf? (demand : Ty) : Node → Option Ty
  | ⟨_, _, .unary _ operand⟩ => typeOf? .boolean operand
  | ⟨_, _, .paren inner⟩ => typeOf? demand inner
  | ⟨_, _, .arrayAccess array _⟩ => (typeOf? .intArray array).map Ty.element
  | ⟨_, _, .arrayLit (e :: es)⟩ =>
    -- Where calls know their demands, none has to be found here.
    (typeOf? (if sc.placed.isSome then .int else firstKnown es) e).map Ty.array
  | ⟨i, _, .call receiver method _⟩ =>
    match sc.knownReturn? (typeOf? .object receiver) method with
    | some t => some t
    | none =>
      match sc.placed with
      | some demandAt => some (demandAt i)
      | none => some demand
  | ⟨_, _, kind⟩ => sc.ownType? kind
termination_by structural n => n

/-- The type of the first of several expressions that is no call, `int` if there is none or its type
is not known. -/
def firstKnown : List Node → Ty
  | [] => .int
  | e :: es => if e.isCall then firstKnown es else (typeOf? .int e).getD .int
termination_by structural es => es

end

/-- A call always has a type. -/
theorem typeOf?_call_ne_none (demand : Ty) (i : Nat) (p : Position) (receiver : Node)
    (method : String) (arguments : List Node) :
    sc.typeOf? demand ⟨i, p, .call receiver method arguments⟩ ≠ none := by
  unfold typeOf?
  split
  · simp
  · split <;> simp

/-- The receiver is an instance of the class of the program. -/
def isLocalReceiver (receiver : Node) : Bool :=
  sc.typeOf? .object receiver = some sc.table.classType

/-! ## Demands -/

/-- What is demanded of one side of a comparison for equality: the type of the other side, but `int`
if that is a call as well. -/
def siblingDemand (sibling : Node) : Ty :=
  if sibling.isCall then .int else (sc.typeOf? .int sibling).getD .int

/-- What is demanded of the two sides of an operator. -/
def operandDemands (op : BinaryOp) (left right : Node) : Ty × Ty :=
  if op.isArithmetic || op.isRelational then (.int, .int)
  else if op.isLogical then (.boolean, .boolean)
  else (sc.siblingDemand right, sc.siblingDemand left)

/-- What a method demands of the argument at an index, `int` if it is not known. -/
def parameterDemand (method : String) (index : Nat) : Ty :=
  match sc.table.params? method with
  | none => .int
  | some params =>
    let isVarargs := sc.table.isVarargs method
    match params[index]? with
    | some p => if isVarargs && index + 1 == params.length then p.type.element else p.type
    | none =>
      if isVarargs then (params.getLast?.map fun p => p.type.element).getD .int else .int

/-- What is demanded of the arguments of a call. -/
def argumentDemands (receiver : Node) (method : String) (arguments : List Node) : List Ty :=
  if sc.isLocalReceiver receiver then
    (List.range arguments.length).map (sc.parameterDemand method)
  else List.replicate arguments.length .int

/-- What is demanded of the elements of an array literal: the type of the first of them that is no
call. Only calls heed it, so for each of these it is the type of another element. -/
def elementDemands (elements : List Node) : List Ty :=
  List.replicate elements.length (sc.firstKnown elements)

/-- What is demanded of the value assigned to a variable. -/
def targetDemand (target : String) : Ty := (sc.variableType? target).getD .int

/-- What is demanded of the value assigned to an element of an array. -/
def elementDemand (target : String) : Ty := ((sc.variableType? target).map Ty.element).getD .int

/-- What is demanded of the value that the method returns. -/
def resultDemand : Ty := (sc.table.returnType? sc.method).getD .int

/-- What a node demands of each of its children. -/
def demands (demand : Ty) (n : Node) : List Ty :=
  match n.kind with
  | .assign target _ => [sc.targetDemand target]
  | .arrayAssign target _ _ => [.int, sc.elementDemand target]
  | .returning value => value.toList.map fun _ => sc.resultDemand
  | .exprStmt _ => [.void]
  | .binary op left right =>
    let (l, r) := sc.operandDemands op left right
    [l, r]
  | .unary _ _ => [.boolean]
  | .ifElse _ _ elseBranch => .boolean :: .boolean :: elseBranch.toList.map fun _ => .boolean
  | .whileLoop _ _ => [.boolean, .boolean]
  | .arrayAccess _ _ => [.intArray, .int]
  | .arrayLength _ => [.intArray]
  | .call receiver method arguments =>
    .object :: sc.argumentDemands receiver method arguments
  | .newArray _ _ => [.int]
  | .arrayLit elements => sc.elementDemands elements
  | .paren _ => [demand]
  | _ => n.children.map fun _ => .int

end Scope

/-! ## Nodes with their scopes -/

/-- A node inside a method, with the scope of the nearest method around it and what is demanded of
it. -/
structure Site where
  scope : Scope
  demand : Ty
  node : Node

/-- The scope of a node and its children, when the node stands in a scope or in none: a method opens
its own. -/
def Node.scopeWithin (table : SymbolTable) (around : Option Scope) (n : Node) : Option Scope :=
  match n.kind with
  | .methodDecl head _ _ _ => some (Scope.ofMethod table head)
  | _ => around

/-- The nodes of a tree that are inside a method, in preorder, a method itself included, when the
tree stands in a scope or in none and something is demanded of it. -/
def sitesWithin (table : SymbolTable) (n : Node) : Option Scope → Ty → List Site :=
  n.fold fun n below around demand =>
    match n.scopeWithin table around with
    | none => below.flatMap fun f => f none .int
    | some sc =>
      ⟨sc, demand, n⟩ :: (below.zip (sc.demands demand n)).flatMap fun (f, d) => f (some sc) d

/-- The nodes of a program that are inside a method. -/
def sites (table : SymbolTable) (root : Node) : List Site := sitesWithin table root none .int

end MiniJava
