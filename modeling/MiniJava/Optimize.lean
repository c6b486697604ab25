import MiniJava.Constant.Folding
import MiniJava.Constant.Propagation

/-!
# The optimizer

Propagation and folding take turns (`optimize`) until a round in which neither replaces anything.
Each replacement leaves one literal more among the nodes that there were at first, so the number of
rounds is bounded by the number of nodes; reaching the bound would be an error (`OptimizerError`).
-/

namespace MiniJava

/-- What an optimization did. -/
structure OptimizationStats where
  /-- Rounds, with the last one that changed nothing. -/
  rounds : Nat := 0
  /-- Variables replaced by literals. -/
  propagated : Nat := 0
  /-- Expressions replaced by their values. -/
  folded : Nat := 0
deriving DecidableEq, Repr, Inhabited

/-- Something was replaced. -/
def OptimizationStats.isChanged (s : OptimizationStats) : Bool := 0 < s.propagated || 0 < s.folded

/-- The rounds did not come to an end. -/
structure NoFixpoint where
  rounds : Nat
deriving DecidableEq, Repr, Inhabited

/-- The message for an optimization without end. -/
def NoFixpoint.message (e : NoFixpoint) : String :=
  "optimization did not reach a fixpoint after " ++ toString e.rounds ++ " rounds"

/-- Rounds of two passes, at most as many as the first argument says, until one changes nothing. -/
def alternate {α : Type} (propagate fold : α → Counted α) :
    Nat → OptimizationStats → α → Except NoFixpoint (α × OptimizationStats)
  | 0, stats, _ => .error ⟨stats.rounds⟩
  | left + 1, stats, a =>
    let p := propagate a
    let f := fold p.value
    let stats : OptimizationStats :=
      ⟨stats.rounds + 1, stats.propagated + p.count, stats.folded + f.count⟩
    if p.isChanged || f.isChanged then alternate propagate fold left stats f.value
    else .ok (f.value, stats)

/-- Optimize a program until nothing is left to do. -/
def optimize (t : SymbolTable) (root : Node) : Except NoFixpoint (Node × OptimizationStats) :=
  alternate (propagateConstants t) foldConstants (root.size + 1) {} root

end MiniJava
