import MiniJava.Graph
import MiniJava.Typing

/-!
# The types of expressions in a graph

In a graph a call may occur at several places, but it has one type: that which the parent that
adopted it last demands, or the first ancestor that is no parenthesis. So here a demand is not
handed down but looked for when a call needs it: `Graph.typeWithin?` (`resolve`) follows an
expression down to the part that decides its type, and `Graph.demandOf` (`call_context_type`) goes
up from a call to its place, and from there down into a neighbour (`sibling_type`). Each node on
this way decides the type of the one before it, so a way that does not run in a circle has at most
as many steps as the graph has nodes.

`Graph.scopeOf` is the scope of a method in which the demands on calls are found in this way.
-/

namespace MiniJava.Graph

variable (g : Graph)

/-! ## Places -/

/-- The nearest ancestor of a node that is no parenthesis, at most so many steps away as the first
argument says, and through which of its children it is reached. -/
def place : Nat → Nat → Nat × Option Nat
  | 0, id => (id, none)
  | steps + 1, id =>
    match g.parent? id with
    | none => (id, none)
    | some parent =>
      if (g.kind parent).label = .paren then place steps parent else (id, some parent)

/-- The number is that of a call, perhaps in parentheses, at most so many as the first argument
says. -/
def isCallWithin : Nat → Nat → Bool
  | 0, _ => false
  | steps + 1, id =>
    match g.kind id with
    | .call _ _ _ => true
    | .paren inner => isCallWithin steps inner
    | _ => false

/-- The number is that of a call, perhaps in parentheses. -/
def isCall (id : Nat) : Bool := g.isCallWithin g.nodes.size id

/-! ## Types -/

variable (sc : Scope)

section Demand

variable (typeOf? : Nat → Option Ty)

/-- The type of the first of several expressions that is no call, `int` if there is none or its type
is not known. -/
def firstKnown (ids : List Nat) : Ty :=
  ((ids.find? fun id => !g.isCall id).bind typeOf?).getD .int

/-- What a kind demands of its child of this number. -/
def childDemand (child : Nat) : Kind Nat → Ty
  | .assign target _ => sc.targetDemand target
  | .arrayAssign target index _ => if index = child then .int else sc.elementDemand target
  | .returning _ => sc.resultDemand
  | .exprStmt _ => .void
  | .binary op left right =>
    if op.isArithmetic || op.isRelational then .int
    else if op.isLogical then .boolean
    else g.firstKnown typeOf? [if left = child then right else left]
  | .unary _ _ | .ifElse _ _ _ | .whileLoop _ _ => .boolean
  | .arrayAccess _ index => if index = child then .int else .intArray
  | .arrayLength _ => .intArray
  | .call receiver method arguments =>
    if receiver = child then .object
    else if typeOf? receiver = some sc.table.classType then
      sc.parameterDemand method ((arguments.idxOf? child).getD 0)
    else .int
  | .arrayLit elements => g.firstKnown typeOf? (elements.filter (· ≠ child))
  | _ => .int

/-- What the place of a call demands of it. -/
def demandOf (id : Nat) : Ty :=
  match g.place g.nodes.size id with
  | (child, some parent) => g.childDemand sc typeOf? child (g.kind parent)
  | (_, none) => .int

end Demand

/-- The type of the expression with a number, if it is found in so many steps as the first argument
says. -/
def typeWithin? : (steps : Nat) → (id : Nat) → Option Ty
  | 0, _ => none
  | steps + 1, id =>
    match g.kind id with
    | .unary _ inner | .paren inner => typeWithin? steps inner
    | .arrayAccess array _ => (typeWithin? steps array).map Ty.element
    | .arrayLit (e :: _) => (typeWithin? steps e).map Ty.array
    | .call receiver method _ =>
      match sc.knownReturn? (typeWithin? steps receiver) method with
      | some t => some t
      | none => some (g.demandOf sc (typeWithin? steps) id)
    | kind => sc.ownType? kind

/-- The type of the expression with a number. -/
def typeOf? (id : Nat) : Option Ty := g.typeWithin? sc g.nodes.size id

/-- The scope of a method in a graph. -/
def scopeOf (t : SymbolTable) (head : MethodHead) : Scope :=
  let sc := Scope.ofMethod t head
  { sc with placed := some (g.demandOf sc (g.typeOf? sc)) }

end MiniJava.Graph
