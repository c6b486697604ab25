import MiniJava.Proofs.Semantics.Behaviour
import MiniJava.Tree.Operator

/-!
# Values

Values are 32-bit integers, truth values, references to objects and arrays, and classes: the name of
an import stands for a class, of which static methods can be called. What a reference refers to is
for the world to know.

Arithmetic is that of the integers, of which the low 32 bits are kept; a quotient is rounded towards
zero, and there is none by zero. Only values of one sort can be compared, and only integers by size.
-/

namespace MiniJava

/-- What a variable holds. -/
inductive Val where
  | int (value : Int32)
  | bool (value : Bool)
  | ref (address : Nat)
  | cls (name : String)
deriving DecidableEq, Repr

/-! ## Variables -/

/-- The values of all variables. -/
abbrev Vars := String → Val

namespace Vars

/-- Give a variable a value. -/
def set (vars : Vars) (x : String) (v : Val) : Vars := fun y => if y = x then v else vars y

@[simp] theorem set_self (vars : Vars) (x : String) (v : Val) : vars.set x v x = v := if_pos rfl

theorem set_of_ne (vars : Vars) {x y : String} (v : Val) (h : y ≠ x) : vars.set x v y = vars y :=
  if_neg h

end Vars

/-! ## Operators -/

namespace BinaryOp

/-- An operator on integers. -/
def onInts (op : BinaryOp) (a b : Int) : Except (Ending Val) Val :=
  match op with
  | add => .ok (.int (.ofInt (a + b)))
  | sub => .ok (.int (.ofInt (a - b)))
  | mul => .ok (.int (.ofInt (a * b)))
  | div => if b = 0 then .error (.thrown .divisionByZero) else .ok (.int (.ofInt (a.tdiv b)))
  | lt => .ok (.bool (a < b))
  | gt => .ok (.bool (a > b))
  | le => .ok (.bool (a ≤ b))
  | ge => .ok (.bool (a ≥ b))
  | eq => .ok (.bool (a = b))
  | ne => .ok (.bool (a ≠ b))
  | and | or => .error .stuck

/-- A comparison of two values for which only equality makes sense. -/
def onEqual (op : BinaryOp) (same : Bool) : Except (Ending Val) Val :=
  match op with
  | eq => .ok (.bool same)
  | ne => .ok (.bool !same)
  | _ => .error .stuck

/-- An operator on two values. The logical operators do not work on two values: the second operand
of them may not be computed. -/
def eval (op : BinaryOp) : Val → Val → Except (Ending Val) Val
  | .int a, .int b => op.onInts a.toInt b.toInt
  | .bool a, .bool b => op.onEqual (a == b)
  | .ref a, .ref b => op.onEqual (a == b)
  | _, _ => .error .stuck

end BinaryOp

/-- The truth value that a condition must have. -/
def Val.truth {ε : Type} : Val → Act ε Val Bool
  | bool b => pure b
  | _ => .stop .stuck

/-- The negation of a truth value. -/
def Val.not {ε : Type} (v : Val) : Act ε Val Val := do return .bool !(← v.truth)

/-- An operator on two acts: the operands are computed from the left, and the second operand of a
logical operator only if the first does not decide the value. -/
def BinaryOp.apply {ε : Type} (op : BinaryOp) (a b : Act ε Val Val) : Act ε Val Val := do
  match op with
  | .and => if ← (← a).truth then b else return .bool false
  | .or => if ← (← a).truth then return .bool true else b
  | op =>
    let x ← a
    let y ← b
    .ofExcept (op.eval x y)

end MiniJava
