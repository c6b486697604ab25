import MiniJava.Tree

/-!
# Graphs of nodes

A tree that is edited node by node is kept as a table (`Ast`): each number has a kind, whose
children are numbers, the position, and the parent that adopted the node last. Nodes are pushed
behind their children and become their parents (`Ast::push`). Replacing the kind of a node makes the
node the parent of its new children (`Ast::replace`). The former children stay in the table, and a
node may come to have several parents; so the table is a graph, in which only what can be reached
from the root counts. A replacement that would put a node under itself is refused.

`Graph.descendants` is the preorder walk with a stack (`Descendants`). `Graph.unfold` is the tree
that is seen from a node; a node with several parents occurs in it several times.

Numbers of nodes (`NodeId`) are 32 bits wide in the program and without bound here. The two differ
for tables of 2^32 nodes or more.
-/

namespace MiniJava

/-- An entry of the table. -/
structure GraphNode where
  kind : Kind Nat
  parent : Option Nat
  position : Position
deriving Repr, Inhabited

/-- Nodes that refer to each other by number. -/
structure Graph where
  nodes : Array GraphNode
  root : Nat
deriving Repr, Inhabited

namespace Graph

/-! ## From trees to graphs and back -/

/-- Make a node the parent of its children. -/
def adopt (nodes : Array GraphNode) (parent : Nat) (children : List Nat) : Array GraphNode :=
  children.foldl
    (fun (nodes : Array GraphNode) child =>
      nodes.modify child fun n => { n with parent := some parent })
    nodes

/-- Add a node behind all others. It adopts its children and has no parent yet. -/
def push (nodes : Array GraphNode) (kind : Kind Nat) (position : Position) : Array GraphNode :=
  (adopt nodes nodes.size kind.children).push { kind, parent := none, position }

/-- The nodes of a tree in the order of their numbers, in which they were made. -/
def inOrder (root : Node) : List Node :=
  let slots := root.preorder.foldl
    (fun (slots : Array (Option Node)) n => slots.setIfInBounds n.id (some n))
    (.replicate root.size none)
  (List.range root.size).filterMap fun id => slots[id]?.join

/-- Push nodes one after the other. -/
def pushAll (ns : List Node) : Array GraphNode :=
  ns.foldl (fun nodes n => push nodes (n.kind.map Node.id) n.position) #[]

/-- The graph of a tree. -/
def ofTree (root : Node) : Graph := { nodes := pushAll (inOrder root), root := root.id }

/-- The kind of a node. A number that is not in the table counts as a leaf. -/
def kind (g : Graph) (id : Nat) : Kind Nat := (g.nodes[id]?.map GraphNode.kind).getD .this

/-- The position of a node. -/
def position (g : Graph) (id : Nat) : Position :=
  (g.nodes[id]?.map GraphNode.position).getD .unknown

/-- The parent that adopted a node last. -/
def parent? (g : Graph) (id : Nat) : Option Nat := g.nodes[id]?.bind GraphNode.parent

/-- The children of a node. -/
def children (g : Graph) (id : Nat) : List Nat := (g.kind id).children

/-- The tree that is seen from a node down to a depth. -/
def unfoldTo (g : Graph) : (depth : Nat) → (id : Nat) → Node
  | 0, id => ⟨id, g.position id, .this⟩
  | depth + 1, id => ⟨id, g.position id, (g.kind id).map (unfoldTo g depth)⟩

/-- The tree that is seen from a node. No path is longer than the table. -/
def unfold (g : Graph) (id : Nat) : Node := g.unfoldTo g.nodes.size id

/-- The tree that is seen from the root. -/
def toTree (g : Graph) : Node := g.unfold g.root

/-- Take numbers from a stack, at most so many as the first argument says. The children of each
come onto the stack, the first one on top. -/
def walk (g : Graph) : (steps : Nat) → (stack : List Nat) → List Nat
  | 0, _ => []
  | _ + 1, [] => []
  | steps + 1, id :: stack => id :: walk g steps (g.children id ++ stack)

/-- The numbers seen from a node in preorder, with repetitions. The walk takes one step for each
node of the tree that is seen. -/
def descendants (g : Graph) (id : Nat) : List Nat := g.walk (g.unfold id).size [id]

/-- A node is seen from the root. -/
def isReachable (g : Graph) (id : Nat) : Bool := (g.descendants g.root).contains id

/-- The numbers seen from the root in increasing order. -/
def reachable (g : Graph) : List Nat :=
  let seen := (g.descendants g.root).foldl (fun (marks : Array Bool) id =>
    marks.setIfInBounds id true) (.replicate g.nodes.size false)
  (List.range g.nodes.size).filter fun id => seen[id]?.getD false

/-! ## Ancestors -/

/-- The nearest node for which `p` holds among the parent of a node, its parent and so on, at most
so many as the first argument says. -/
def ancestorWithin (g : Graph) (p : Kind Nat → Bool) : Nat → Nat → Option Nat
  | 0, _ => none
  | steps + 1, id =>
    match g.parent? id with
    | none => none
    | some parent => if p (g.kind parent) then some parent else ancestorWithin g p steps parent

/-- The nearest node above for which `p` holds. -/
def ancestor? (g : Graph) (p : Kind Nat → Bool) (id : Nat) : Option Nat :=
  g.ancestorWithin p g.nodes.size id

/-- The method that a node is in. -/
def enclosingMethod? (g : Graph) (id : Nat) : Option Nat :=
  g.ancestor? (·.label = .methodDecl) id

/-- The head of a method declaration. -/
def head? (g : Graph) (id : Nat) : Option MethodHead :=
  match g.kind id with
  | .methodDecl head _ _ _ => some head
  | _ => none

/-- The head of the method that a node declares, or else of the method that it is in. -/
def methodHead? (g : Graph) (id : Nat) : Option MethodHead :=
  match g.head? id with
  | some head => some head
  | none => (g.enclosingMethod? id).bind g.head?

/-! ## Replacing -/

/-- Give a node another kind, and adopt the children of that kind. -/
def replace (g : Graph) (id : Nat) (kind : Kind Nat) : Graph :=
  { g with nodes := (adopt g.nodes id kind.children).modify id fun n => { n with kind } }

/-- Why a replacement is refused. -/
inductive ReplaceError where
  /-- A number is not seen from the root. -/
  | node
  /-- The node would be under itself. -/
  | cycle
deriving DecidableEq, Repr, Inhabited

/-- Replace the kind of a node that is seen from the root by one whose children are, too. -/
def replace? (g : Graph) (id : Nat) (kind : Kind Nat) : Except ReplaceError Graph :=
  if !(id :: kind.children).all g.isReachable then .error .node
  else if kind.children.any fun child => (g.descendants child).contains id then .error .cycle
  else .ok (g.replace id kind)

end Graph

end MiniJava
