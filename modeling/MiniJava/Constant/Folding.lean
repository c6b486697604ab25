import MiniJava.Constant
import MiniJava.Constant.Counted

/-!
# Constant folding

An expression whose operands are literals is replaced by the literal of its value, from the leaves
upwards, so that a single pass folds all that can be folded. This is the pass `ConstantFolding`, and
`Kind.foldable?` is its `evaluate`.
-/

namespace MiniJava

/-- The value of an operation on literals, and of a literal in parentheses. What is a literal among
the children is for `literal?` to say. -/
def Kind.foldable? {α : Type} (literal? : α → Option Constant) : Kind α → Option Constant
  | .binary op left right => do Constant.binary? op (← literal? left) (← literal? right)
  | .unary op operand => do Constant.unary? op (← literal? operand)
  | .paren inner => literal? inner
  | _ => none

/-- Replace a node by the literal of its value, if it has one. -/
def Node.foldHere (n : Node) : Counted Node :=
  match n.kind.foldable? Node.literal? with
  | some c => .once (n.become c)
  | none => pure n

/-- One pass of folding. -/
def foldConstants (root : Node) : Counted Node := root.rewrite Node.foldHere

end MiniJava
