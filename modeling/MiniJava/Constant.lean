import MiniJava.Tree

/-!
# Constants

The values that the compiler can compute: 32-bit integers, whose arithmetic wraps around, and truth
values (`ConstValue`). `Constant.binary?` is the value of an operator on constants (`fold_binary`).
There is none if the operands do not fit the operator, nor for a division by zero, which is left to
fail when the program runs.
-/

namespace MiniJava

/-- A value known to the compiler. -/
inductive Constant where
  | int (value : Int32)
  | bool (value : Bool)
deriving DecidableEq, Repr, Inhabited

namespace Constant

/-- The value of a literal. -/
def ofKind? {α : Type} : Kind α → Option Constant
  | .intLit value => some (int value)
  | .boolLit value => some (bool value)
  | _ => none

/-- The literal for a value. -/
def toKind {α : Type} : Constant → Kind α
  | int value => .intLit value
  | bool value => .boolLit value

/-- How a value is written. -/
def text : Constant → String
  | int value => toString value.toInt
  | bool value => if value then "true" else "false"

/-- An operator on integers. Division rounds towards zero. -/
def binaryInt? (op : BinaryOp) (a b : Int32) : Option Constant :=
  match op with
  | .add => some (int (a + b))
  | .sub => some (int (a - b))
  | .mul => some (int (a * b))
  | .div => if b = 0 then none else some (int (a / b))
  | .lt => some (bool (a < b))
  | .gt => some (bool (b < a))
  | .le => some (bool (a ≤ b))
  | .ge => some (bool (b ≤ a))
  | .eq => some (bool (a = b))
  | .ne => some (bool (a ≠ b))
  | .and | .or => none

/-- An operator on truth values. -/
def binaryBool? (op : BinaryOp) (a b : Bool) : Option Constant :=
  match op with
  | .and => some (bool (a && b))
  | .or => some (bool (a || b))
  | .eq => some (bool (a == b))
  | .ne => some (bool (a != b))
  | _ => none

/-- An operator on constants. -/
def binary? (op : BinaryOp) : Constant → Constant → Option Constant
  | int a, int b => binaryInt? op a b
  | bool a, bool b => binaryBool? op a b
  | _, _ => none

/-- A negation. -/
def unary? : UnaryOp → Constant → Option Constant
  | .not, bool a => some (bool !a)
  | .not, int _ => none

end Constant

/-- The value of a node that is a literal. -/
def Node.literal? (n : Node) : Option Constant := Constant.ofKind? n.kind

/-- The literal for a value in place of a node. -/
def Node.become (n : Node) (c : Constant) : Node := { n with kind := c.toKind }

end MiniJava
