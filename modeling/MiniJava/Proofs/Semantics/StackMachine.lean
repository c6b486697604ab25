import MiniJava.Jvm.Instr
import MiniJava.Proofs.Semantics.Code

/-!
# The meaning of instructions

The virtual machine has an operand stack and numbered registers. Integers have 32 bits and wrap,
truth values are the integers 0 and 1, and anything else is a reference. Instructions of one family
only move values of that family: a method that loads a reference as an integer is stuck, and so is
one that takes more from the stack than there is.

Calls, objects, arrays and fields are effects, with the values that the instruction takes from the
stack, the first of them the one that was put there first. What comes back is put on the stack,
unless the effect has no result.
-/

namespace MiniJava.Jvm

open Ir (Invocation)

/-! ## Values and effects -/

/-- What is on the stack or in a register. -/
inductive Val where
  | int (value : Int32)
  | ref (address : Nat)
  /-- A register has no value before one is stored in it. -/
  | unset
deriving DecidableEq, Repr

/-- What an instruction does beyond the stack and the registers. -/
inductive Effect where
  | newObject (path : String)
  | newArray (component : Component) (length : Val)
  | arrayLength (array : Val)
  | loadElement (sort : ElementSort) (array index : Val)
  | storeElement (sort : ElementSort) (array index value : Val)
  | getField (field : FieldRef) (object : Val)
  | putField (field : FieldRef) (object value : Val)
  /-- The receiver is the first of the arguments, unless the call is static. -/
  | invoke (invocation : Invocation) (method : MethodRef) (arguments : List Val)
deriving DecidableEq, Repr

/-- The sort of the values of a type. -/
def JType.sort : JType → ElementSort
  | boolean => .boolean
  | int | void => .int
  | array _ | object _ => .ref

/-- The sort of what comes back from an effect, if anything does. -/
def Effect.result? : Effect → Option ElementSort
  | newObject _ | newArray _ _ => some .ref
  | arrayLength _ => some .int
  | loadElement sort _ _ => some sort
  | getField field _ => some field.type.sort
  | invoke _ method _ => if method.type.result = .void then none else some method.type.result.sort
  | storeElement _ _ _ _ | putField _ _ _ => none

/-! ## Operations -/

/-- Instructions of this family move the value. -/
def Family.moves : Family → Val → Bool
  | int, .int _ | ref, .ref _ | _, .unset => true
  | _, _ => false

/-- The result of an operation. -/
def Arith.eval (op : Arith) (a b : Int32) : Except (Ending Val) Int32 :=
  match op with
  | add => .ok (a + b)
  | sub => .ok (a - b)
  | mul => .ok (a * b)
  | div => if b = 0 then .error (.thrown .divisionByZero) else .ok (a / b)

/-- Two values compare so, if they can be compared. -/
def Comparison.holds? : Comparison → Val → Val → Option Bool
  | lt, .int a, .int b => some (a < b)
  | gt, .int a, .int b => some (b < a)
  | le, .int a, .int b => some (a ≤ b)
  | ge, .int a, .int b => some (b ≤ a)
  | eq, .int a, .int b => some (a == b)
  | ne, .int a, .int b => some (a != b)
  | refEq, .ref a, .ref b => some (a == b)
  | refNe, .ref a, .ref b => some (a != b)
  | _, _, _ => none

/-! ## Instructions -/

namespace Instr

/-- How many values an instruction takes from the stack. A call takes its receiver unless it is
static. -/
def pops : Instr → Nat
  | store _ _ | pop | arrayLength | newArray _ | getField _ | ifTrue _ | retValue _ => 1
  | loadElement _ | arith _ | xor | putField _ | ifCompare _ _ => 2
  | storeElement _ => 3
  | invoke .static _ arguments => arguments
  | invoke _ _ arguments => arguments + 1
  | const _ | load _ _ | newObject _ | goto _ | ret | label _ => 0

/-- How many values an instruction puts on the stack. -/
def pushes : Instr → Nat
  | const _ | load _ _ | loadElement _ | arith _ | xor | arrayLength | newObject _ | newArray _
  | getField _ => 1
  | invoke _ method _ => if method.type.result = .void then 0 else 1
  | store _ _ | storeElement _ | pop | putField _ | goto _ | ifTrue _ | ifCompare _ _ | ret
  | retValue _ | label _ => 0

end Instr

/-- The local state of a method. The top of the stack is in front. -/
structure Locals where
  stack : List Val
  registers : UInt16 → Val

/-- Have an effect, and put on the stack what comes back. -/
def Locals.perform (l : Locals) (w : World Effect Val) (e : Effect) :
    Act Effect Val (Next Locals) :=
  match e.result? with
  | some _ => do return .fall { l with stack := (← w.ask e) :: l.stack }
  | none => do
    let _ ← w.perform e
    return .fall l

/-- The name of a label. -/
def Instr.label? : Instr → Option String
  | label name => some name
  | _ => none

/-- Execute an instruction. -/
def Instr.act (w : World Effect Val) (i : Instr) (l : Locals) : Act Effect Val (Next Locals) :=
  match i, l.stack with
  | const n, s => return .fall { l with stack := .int n :: s }
  | load family r, s =>
    if family.moves (l.registers r) then return .fall { l with stack := l.registers r :: s }
    else .stop .stuck
  | store family r, v :: s =>
    if family.moves v then
      return .fall ⟨s, fun r' => if r' = r then v else l.registers r'⟩
    else .stop .stuck
  | loadElement sort, i :: a :: s => { l with stack := s }.perform w (.loadElement sort a i)
  | storeElement sort, v :: i :: a :: s =>
    { l with stack := s }.perform w (.storeElement sort a i v)
  | arith op, .int b :: .int a :: s => do
    return .fall { l with stack := .int (← .ofExcept (op.eval a b)) :: s }
  | xor, .int b :: .int a :: s => return .fall { l with stack := .int (a ^^^ b) :: s }
  | pop, _ :: s => return .fall { l with stack := s }
  | arrayLength, a :: s => { l with stack := s }.perform w (.arrayLength a)
  | newObject path, _ => l.perform w (.newObject path)
  | newArray component, n :: s => { l with stack := s }.perform w (.newArray component n)
  | getField field, o :: s => { l with stack := s }.perform w (.getField field o)
  | putField field, v :: o :: s => { l with stack := s }.perform w (.putField field o v)
  | invoke invocation method arguments, s =>
    let n := (invoke invocation method arguments).pops
    if n ≤ s.length then
      { l with stack := s.drop n }.perform w (.invoke invocation method (s.take n).reverse)
    else .stop .stuck
  | goto target, _ => return .jump target l
  | ifTrue target, .int n :: s =>
    return if n ≠ 0 then .jump target { l with stack := s } else .fall { l with stack := s }
  | ifCompare comparison target, b :: a :: s =>
    match comparison.holds? a b with
    | some true => return .jump target { l with stack := s }
    | some false => return .fall { l with stack := s }
    | none => .stop .stuck
  | ret, _ => .stop (.returned none)
  | retValue family, v :: _ =>
    if family.moves v then .stop (.returned (some v)) else .stop .stuck
  | label _, _ => return .fall l
  | _, _ => .stop .stuck

/-- The instructions as a language. -/
def language (w : World Effect Val) : Language Instr Locals Effect Val :=
  ⟨Instr.label?, Instr.act w⟩

end MiniJava.Jvm
