import MiniJava.Check
import MiniJava.Graph.Optimize
import MiniJava.Graph.Typing
import MiniJava.Ir.OfTree

/-!
# Sessions

In a session one program is edited, optimized, checked and lowered step by step. The symbol table is
that of the program at first. The numbers of replacements by single passes add up over the session;
an optimization until nothing is left to do counts for itself.
-/

namespace MiniJava

/-- The state of a session. -/
structure Session where
  table : SymbolTable
  graph : Graph
  /-- Variables replaced by passes of propagation. -/
  propagated : Nat := 0
  /-- Expressions replaced by passes of folding. -/
  folded : Nat := 0
deriving Repr, Inhabited

namespace Session

/-- A session on a program. -/
def start (root : Node) (table : SymbolTable) : Session := { table, graph := .ofTree root }

/-- The program as it is now. -/
def tree (s : Session) : Node := s.graph.toTree

/-- One pass of propagation, and whether it changed the program. -/
def propagate (s : Session) : Session × Bool :=
  let r := s.graph.propagateConstants s.table
  ({ s with graph := r.value, propagated := s.propagated + r.count }, r.isChanged)

/-- One pass of folding, and whether it changed the program. -/
def fold (s : Session) : Session × Bool :=
  let r := s.graph.foldConstants
  ({ s with graph := r.value, folded := s.folded + r.count }, r.isChanged)

/-- Optimize until nothing is left to do. -/
def optimize (s : Session) : Except NoFixpoint (Session × OptimizationStats) := do
  let (graph, stats) ← s.graph.optimize s.table
  return ({ s with graph }, stats)

/-- The errors of the program as it is now. -/
def analyze (s : Session) : List SemanticError :=
  analyzeWith (s.graph.scopeOf s.table) s.table s.tree

/-- The three-address code of the program as it is now. -/
def lower (s : Session) : Except Ir.LoweringError Ir.ClassUnit :=
  lowerWith (s.graph.scopeOf s.table) s.table s.tree

/-- Replace a node. -/
def replace (s : Session) (id : Nat) (kind : Kind Nat) : Except Graph.ReplaceError Session :=
  (s.graph.replace? id kind).map fun graph => { s with graph }

/-- A number that must be seen from the root. -/
def require (s : Session) (id : Nat) : Except Graph.ReplaceError Unit :=
  if s.graph.isReachable id then .ok () else .error .node

end Session

end MiniJava
