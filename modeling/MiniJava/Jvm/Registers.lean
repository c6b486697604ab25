import Std.Data.HashMap
import MiniJava.Ir

/-!
# Registers

Each variable of a method gets a register of its own. In an instance method register 0 holds `this`.
The parameters follow, then all other variables in the order in which the instructions mention them.
Registers are numbered by 16-bit words, so numbers repeat after 65536 of them. `Registers` is the
`RegisterMap`, which `Registers.ofMethod` builds.
-/

namespace MiniJava.Ir

/-! ## Variables in the order in which they are mentioned -/

/-- The variable that an operand is. -/
def Operand.vars : Operand → List Var
  | var v => [v]
  | _ => []

/-- The variables of a call. -/
def Call.vars (c : Call) : List Var := c.target.vars ++ c.arguments.flatMap Operand.vars

/-- The variables of an operation. The name of a field is no variable. -/
def Rhs.vars : Rhs → List Var
  | single value => value.vars
  | binary _ left right => left.vars ++ right.vars
  | not operand => operand.vars
  | call c => c.vars
  | getField object _ => object.vars
  | arrayLoad array index => array :: index.vars
  | arrayLength array => [array]
  | newObject _ => []
  | newArray size _ => size.vars

/-- The variables of an instruction. -/
def Instr.vars : Instr → List Var
  | assign dest value => dest :: value.vars
  | arrayStore array index value => array :: index.vars ++ value.vars
  | putField object _ value => object.vars ++ value.vars
  | call c => c.vars
  | branch condition _ => condition.vars
  | ret (some value) => value.vars
  | ret none | goto _ | label _ => []

/-- The variables of a method: its parameters and those in its code. -/
def Method.vars (m : Method) : List Var := m.params ++ m.code.flatMap Instr.vars

end MiniJava.Ir

namespace MiniJava.Jvm

/-- The registers of variables, and the next free one. -/
structure Registers where
  slots : Std.HashMap String UInt16 := {}
  next : UInt16 := 0
deriving Inhabited

namespace Registers

/-- The register of a variable. -/
def get? (r : Registers) (name : String) : Option UInt16 := r.slots[name]?

/-- Give a variable the next register, unless it has one. -/
def assign (r : Registers) (name : String) : Registers :=
  if r.slots.contains name then r
  else ⟨r.slots.insert name r.next, r.next + 1⟩

theorem get?_assign (r : Registers) (x y : String) :
    (r.assign x).get? y = if y = x then some ((r.get? x).getD r.next) else r.get? y := by
  unfold assign get?
  cases hx : r.slots[x]? with
  | some i =>
    have hcontains : r.slots.contains x = true := by
      rw [Std.HashMap.contains_eq_isSome_getElem?, hx, Option.isSome_some]
    rw [if_pos hcontains]
    by_cases h : y = x
    · rw [if_pos h, h, hx, Option.getD_some]
    · rw [if_neg h]
  | none =>
    have hcontains : r.slots.contains x = false := by
      rw [Std.HashMap.contains_eq_isSome_getElem?, hx, Option.isSome_none]
    rw [hcontains, if_neg Bool.false_ne_true, Std.HashMap.getElem?_insert, Option.getD_none]
    simp only [beq_iff_eq, eq_comm (a := x)]

/-- The registers of a method. -/
def ofMethod (m : Ir.Method) : Registers :=
  (m.vars.map Ir.Var.name).foldl assign { next := if m.isStatic then 0 else 1 }

/-- The number of registers. -/
def size (r : Registers) : Nat := r.next.toNat

end Registers

end MiniJava.Jvm
