import MiniJava.Graph
import MiniJava.Optimize

/-!
# Optimizing a graph

The passes `ConstantPropagation` and `ConstantFolding` on a graph. A pass visits the nodes in the
order of the tree that is seen from the root, and writes each replacement at the number of the node
(`Ast::replace`). A node with several parents is thus visited several times but replaced at most
once: from then on it is a literal wherever it occurs.
-/

namespace MiniJava.Graph

/-- A step of a pass: it changes the graph and counts the replacements. -/
abbrev Edit := StateT Graph Counted

/-- Replace a node by a literal. -/
def settle (id : Nat) (c : Constant) : Edit Unit := do
  set ((← get).replace id c.toKind)
  StateT.lift (Counted.once ())

/-- The value of a node that is a literal now. -/
def literal? (g : Graph) (id : Nat) : Option Constant := Constant.ofKind? (g.kind id)

/-! ## Folding -/

/-- Fold below a node, then the node itself, unless it has become a literal meanwhile. -/
def foldFrom (n : Node) : Edit Unit :=
  n.fold fun n below => do
    if ((← get).literal? n.id).isNone then
      below.forM id
      let g ← get
      if let some c := (g.kind n.id).foldable? g.literal? then settle n.id c

/-- One pass of folding. -/
def foldConstants (g : Graph) : Counted Graph := do
  return (← (foldFrom g.toTree).run g).2

/-! ## Propagation -/

/-- Replace the known variables of an expression. -/
def substituteFrom (k : Known) (n : Node) : Edit Unit :=
  n.fold fun n below =>
    match n.kind with
    | .varRef name => do
      if ((← get).literal? n.id).isNone then
        if let some c := k.get? name then settle n.id c
    | .binary _ _ _ | .unary _ _ | .newArray _ _ | .arrayLit _ | .arrayAccess _ _ | .arrayLength _
    | .call _ _ _ | .paren _ => below.forM id
    | _ => return

mutual

/-- Replace the known variables of a statement, and say what is known behind it. -/
def propagateFrom (tracked : List String) (k : Known) : Node → Edit Known
  | ⟨_, _, .assign target value⟩ => do
    substituteFrom k value
    return k.assign tracked target ((← get).literal? value.id)
  | ⟨_, _, .arrayAssign _ index value⟩ => do
    substituteFrom k index
    substituteFrom k value
    return k
  | ⟨_, _, .returning (some value)⟩ => do
    substituteFrom k value
    return k
  | ⟨_, _, .exprStmt e⟩ => do
    substituteFrom k e
    return k
  | ⟨_, _, .block statements⟩ => propagateThrough tracked k statements
  | ⟨_, _, .ifElse condition thenBranch none⟩ => do
    substituteFrom k condition
    let kt ← propagateFrom tracked k thenBranch
    return kt.meet k
  | ⟨_, _, .ifElse condition thenBranch (some elseBranch)⟩ => do
    substituteFrom k condition
    let kt ← propagateFrom tracked k thenBranch
    let ke ← propagateFrom tracked k elseBranch
    return kt.meet ke
  | ⟨_, _, .whileLoop condition body⟩ => do
    let k := k.eraseAll body.assignedNames
    substituteFrom k condition
    let _ ← propagateFrom tracked k body
    return k
  | _ => return k
termination_by structural n => n

/-- Replace the known variables of statements that follow each other. -/
def propagateThrough (tracked : List String) (k : Known) : List Node → Edit Known
  | [] => return k
  | n :: ns => do
    let k ← propagateFrom tracked k n
    propagateThrough tracked k ns
termination_by structural ns => ns

end

/-- Replace the known variables of a method. -/
def propagateIn (t : SymbolTable) (n : Node) : Edit Unit := do
  match n.kind with
  | .methodDecl head _ _ body => let _ ← propagateThrough (trackedNames t head) {} body
  | _ => return

/-- One pass of propagation. -/
def propagateConstants (t : SymbolTable) (g : Graph) : Counted Graph := do
  return (← (g.toTree.methods.forM (propagateIn t)).run g).2

/-- Optimize what is seen from the root until nothing is left to do. -/
def optimize (t : SymbolTable) (g : Graph) : Except NoFixpoint (Graph × OptimizationStats) :=
  alternate (propagateConstants t) foldConstants (g.nodes.size + 1) {} g

end MiniJava.Graph
