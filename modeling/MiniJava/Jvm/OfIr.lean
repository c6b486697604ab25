import MiniJava.Diagnostic
import MiniJava.Ir.Text
import MiniJava.Jvm.Instr
import MiniJava.Jvm.Registers
import MiniJava.Jvm.Stack

/-!
# From three-address code to instructions

Each instruction of three-address code becomes a row of instructions that finds the operand stack
empty and leaves it empty. The truth value of a comparison is made by a jump over the constant 0 to
the constant 1; the labels for this are numbered within a method.

This is the `MethodEmitter`. What it keeps beside the code is `EmitState`: each instruction is made
with the number of values that it takes from the stack and of those that it puts there
(`Jvm.push`), and a jump, a label or a return is told to the tracker as well.
-/

namespace MiniJava.Jvm

open Ir (IrType Operand Var Rhs BinOp Call Invocation)

/-! ## Failures -/

/-- Why there are no instructions for a method. -/
inductive EmitError where
  | unknownVariable (name method : String)
  | classAsValue (name method : String)
  | invalidReceiver (member type method : String)
  | registerLimit (method : String) (needed limit : Nat)
deriving DecidableEq, Repr, Inhabited

namespace EmitError

/-- The message for a method without instructions. -/
def message : EmitError → String
  | unknownVariable name method =>
    "variable '" ++ name ++ "' has no register in method '" ++ method ++ "'"
  | classAsValue name method =>
    "class '" ++ name ++ "' cannot be used as a value in method '" ++ method ++ "'"
  | invalidReceiver member type method =>
    "cannot invoke '" ++ member ++ "' on a value of type " ++ type ++ " in method '" ++ method ++
      "'"
  | registerLimit method needed limit =>
    "method '" ++ method ++ "' needs " ++ toString needed ++ " local registers, but only " ++
      toString limit ++ " are allowed"

/-- How to mend it. -/
def suggestions : EmitError → List Suggestion
  | registerLimit _ _ _ => [{ message := "raise the register limit or split the method" }]
  | _ => []

/-- The diagnostic for a method without instructions. -/
def toDiagnostic (e : EmitError) : Diagnostic :=
  { Diagnostic.error .assembly e.message with suggestions := e.suggestions }

end EmitError

/-! ## Operands -/

/-- What the instructions of a method depend on. -/
structure Frame where
  classes : ClassNames
  registers : Registers
  method : String

/-- What is kept while the instructions of a method are made. -/
structure EmitState where
  /-- The number for the next comparison. -/
  comparisons : Nat := 0
  /-- The stack behind the instructions so far. -/
  stack : StackDepth := {}
deriving Repr, Inhabited

/-- Something made while the stack is followed, or a failure. -/
abbrev Emit := StateT EmitState (Except EmitError)

/-! ## Following the stack -/

/-- Tell the tracker of the stack. -/
def track (f : StackDepth → StackDepth) : Emit Unit := modify fun s => { s with stack := f s.stack }

/-- An instruction that takes so many values from the stack and then puts so many there. -/
def push (i : Instr) (pops pushes : Nat) : Emit (List Instr) := do
  track (·.apply pops pushes)
  return [i]

/-- An instruction that takes so many values from the stack and then jumps, or does not. -/
def pushBranch (i : Instr) (pops : Nat) (target : String) : Emit (List Instr) := do
  let code ← push i pops 0
  track (·.branch target)
  return code

/-- An instruction that takes so many values from the stack and then ends the method. -/
def pushReturn (i : Instr) (pops : Nat) : Emit (List Instr) := do
  let code ← push i pops 0
  track (·.terminate)
  return code

/-- Jump in any case. -/
def goto (target : String) : Emit (List Instr) := do
  track (·.jump target)
  return [.goto target]

/-- Set a label. -/
def setLabel (name : String) : Emit (List Instr) := do
  track (·.label name)
  return [.label name]

namespace Frame

variable (fr : Frame)

/-- The register of a variable. -/
def register (v : Var) : Emit UInt16 :=
  match fr.registers.get? v.name with
  | some r => return r
  | none => throw (.unknownVariable v.name fr.method)

/-- Put the value of a variable on the stack. -/
def loadVar (v : Var) : Emit (List Instr) := do
  push (.load (.ofType v.type) (← fr.register v)) 0 1

/-- Put an operand on the stack. -/
def load : Operand → Emit (List Instr)
  | .literal value _ => push (.const value) 0 1
  | .var v => fr.loadVar v
  | .this _ => push (.load .ref 0) 0 1
  | .classRef name => throw (.classAsValue name fr.method)

/-- Put several operands on the stack. -/
def loadAll : List Operand → Emit (List Instr)
  | [] => return []
  | o :: os => do return (← fr.load o) ++ (← loadAll os)

/-- Take a value from the stack into a variable. -/
def store (v : Var) : Emit (List Instr) := do
  push (.store (.ofType v.type) (← fr.register v)) 1 0

/-- The path of the class of an object, one of whose members is used. -/
def owner (object : Operand) (member : String) : Emit String :=
  match object.type with
  | .classRef name => return fr.classes.classPath name
  | t => throw (.invalidReceiver member t.text fr.method)

/-- The field of an object. -/
def fieldRef (object : Operand) (field : Var) : Emit FieldRef := do
  return ⟨← fr.owner object field.name, field.name, fr.classes.jtype field.type⟩

/-! ## Operations -/

/-- Call a method and leave its result on the stack. -/
def call (c : Call) : Emit (List Instr) := do
  let (owner, receiver, receivers) ← match c.invocation, c.target with
    | .static, .classRef name => pure (fr.classes.classPath name, [], 0)
    | .static, target => throw (.invalidReceiver c.method target.type.text fr.method)
    | _, target => do
      let owner ← fr.owner target c.method
      pure (owner, ← fr.load target, 1)
  let arguments ← fr.loadAll c.arguments
  let method : MethodRef :=
    ⟨owner, c.method, fr.classes.methodType c.signature c.returnType⟩
  let invoke ← push (.invoke c.invocation method c.arguments.length)
    (receivers + c.arguments.length) (if c.returnType = .void then 0 else 1)
  return receiver ++ arguments ++ invoke

/-- The comparison for an operation; references are compared only for equality. -/
def comparison (op : BinOp) (isReference : Bool) : Comparison :=
  match op, isReference with
  | .eq, true => .refEq
  | .ne, true => .refNe
  | .lt, _ => .lt
  | .gt, _ => .gt
  | .le, _ => .le
  | .ge, _ => .ge
  | .ne, _ => .ne
  | _, _ => .eq

/-- Replace two values on the stack by 1 if they compare so, else by 0. -/
def compare (c : Comparison) : Emit (List Instr) := do
  let s ← getModify fun s => { s with comparisons := s.comparisons + 1 }
  let trueLabel := "cmp_true_" ++ toString s.comparisons
  let endLabel := "cmp_end_" ++ toString s.comparisons
  let jump ← pushBranch (.ifCompare c trueLabel) 2 trueLabel
  let zero ← push (.const 0) 0 1
  let skip ← goto endLabel
  let whenTrue ← setLabel trueLabel
  let one ← push (.const 1) 0 1
  let behind ← setLabel endLabel
  return jump ++ zero ++ skip ++ whenTrue ++ one ++ behind

/-- Replace two values on the stack by the result of an operation. -/
def operate (op : BinOp) (isReference : Bool) : Emit (List Instr) :=
  match op with
  | .add => push (.arith .add) 2 1
  | .sub => push (.arith .sub) 2 1
  | .mul => push (.arith .mul) 2 1
  | .div => push (.arith .div) 2 1
  | op => compare (comparison op isReference)

/-- Compute a value and leave it on the stack. -/
def rhs : Rhs → Emit (List Instr)
  | .single value => fr.load value
  | .binary op left right => do
    let l ← fr.load left
    let r ← fr.load right
    let o ← operate op (left.type.isReference || right.type.isReference)
    return l ++ r ++ o
  | .not operand => do return (← fr.load operand) ++ (← push (.const 1) 0 1) ++ (← push .xor 2 1)
  | .call c => fr.call c
  | .getField object field => do
    let f ← fr.fieldRef object field
    return (← fr.load object) ++ (← push (.getField f) 1 1)
  | .arrayLoad array index => do
    let a ← fr.loadVar array
    let i ← fr.load index
    return a ++ i ++ (← push (.loadElement (.ofType array.type.element)) 2 1)
  | .arrayLength array => do return (← fr.loadVar array) ++ (← push .arrayLength 1 1)
  | .newObject className => push (.newObject (fr.classes.classPath className)) 0 1
  | .newArray size t => do
    return (← fr.load size) ++ (← push (.newArray (fr.classes.component t.element)) 1 1)

/-- The instructions for one instruction of three-address code. -/
def instr : Ir.Instr → Emit (List Instr)
  | .assign dest value => do
    let v ← fr.rhs value
    return v ++ (← fr.store dest)
  | .arrayStore array index value => do
    let a ← fr.loadVar array
    let i ← fr.load index
    let v ← fr.load value
    return a ++ i ++ v ++ (← push (.storeElement (.ofType array.type.element)) 3 0)
  | .putField object field value => do
    let f ← fr.fieldRef object field
    let o ← fr.load object
    let v ← fr.load value
    return o ++ v ++ (← push (.putField f) 2 0)
  | .call c => do
    let code ← fr.call c
    if c.returnType = .void then return code else return code ++ (← push .pop 1 0)
  | .goto target => goto target
  | .branch condition target => do
    return (← fr.load condition) ++ (← pushBranch (.ifTrue target) 1 target)
  | .ret none => pushReturn .ret 0
  | .ret (some value) => do
    return (← fr.load value) ++ (← pushReturn (.retValue (.ofType value.type)) 1)
  | .label name => setLabel name

/-- The instructions for a row of three-address code. -/
def code : Ir.Code → Emit (List Instr)
  | [] => return []
  | i :: is => do return (← fr.instr i) ++ (← code is)

end Frame

/-! ## Methods -/

/-- The instructions of a method with what the machine has to know of them. -/
structure EmittedMethod where
  name : String
  isPublic : Bool
  isStatic : Bool
  type : MethodType
  stackLimit : Nat
  locals : Nat
  code : List Instr
deriving Repr, Inhabited

/-- The instructions of a method, which may use at most so many registers as the limit says. -/
def emitMethod (classes : ClassNames) (limit : Option Nat) (m : Ir.Method) :
    Except EmitError EmittedMethod := do
  let registers := Registers.ofMethod m
  if let some limit := limit then
    if limit < registers.size then throw (.registerLimit m.name registers.size limit)
  let (code, s) ← (Frame.code ⟨classes, registers, m.name⟩ m.code).run {}
  return {
    name := m.name
    isPublic := m.isPublic
    isStatic := m.isStatic
    type := classes.methodType (m.params.map Var.type) m.returnType
    stackLimit := s.stack.max
    locals := registers.size
    code }

end MiniJava.Jvm
