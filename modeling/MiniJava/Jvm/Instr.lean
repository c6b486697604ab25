import MiniJava.Jvm.Descriptor

/-!
# Instructions of the virtual machine

The instructions that are emitted, and their text. Variables live in numbered registers; the numbers
are 16-bit words. `Instr.constText` is `int_constant`, `Instr.registerText` is `register_op`, and
`ElementSort.ofType` is `array_prefix`.
-/

namespace MiniJava.Jvm

open Ir

/-! ## Parts of instructions -/

/-- The two families of registers instructions: for references and for all else. -/
inductive Family where
  | int
  | ref
deriving DecidableEq, Repr, Inhabited

namespace Family

/-- The letter of a family. -/
def letter : Family → String
  | int => "i"
  | ref => "a"

/-- The family for values of a type. -/
def ofType (t : IrType) : Family := if t.isReference then ref else int

end Family

/-- What the elements of an array are, as far as instructions tell. -/
inductive ElementSort where
  | boolean
  | int
  | ref
deriving DecidableEq, Repr, Inhabited

namespace ElementSort

/-- The letter of a sort of element. -/
def letter : ElementSort → String
  | boolean => "b"
  | int => "i"
  | ref => "a"

/-- The sort of elements of a type. -/
def ofType : IrType → ElementSort
  | .boolean => boolean
  | .int32 | .void => int
  | .string | .array _ | .classRef _ => ref

end ElementSort

/-- Operations on two integers. -/
inductive Arith where
  | add
  | sub
  | mul
  | div
deriving DecidableEq, Repr, Inhabited

/-- The name of an operation. -/
def Arith.name : Arith → String
  | add => "iadd"
  | sub => "isub"
  | mul => "imul"
  | div => "idiv"

/-- Comparisons of two integers or of two references. -/
inductive Comparison where
  | lt
  | gt
  | le
  | ge
  | eq
  | ne
  | refEq
  | refNe
deriving DecidableEq, Repr, Inhabited

/-- The name of the jump on a comparison. -/
def Comparison.name : Comparison → String
  | lt => "if_icmplt"
  | gt => "if_icmpgt"
  | le => "if_icmple"
  | ge => "if_icmpge"
  | eq => "if_icmpeq"
  | ne => "if_icmpne"
  | refEq => "if_acmpeq"
  | refNe => "if_acmpne"

/-- What the elements of a new array are. -/
inductive Component where
  | int
  | boolean
  | object (path : String)
  | other (type : JType)
deriving DecidableEq, Repr, Inhabited

/-- The instruction for a new array: one for primitive elements, one for references. -/
def Component.text : Component → String
  | int => "newarray int"
  | boolean => "newarray boolean"
  | object path => "anewarray " ++ path
  | other t => "anewarray " ++ t.text

/-- The elements of a new array, for elements of a type. -/
def ClassNames.component (cs : ClassNames) : IrType → Component
  | .int32 => .int
  | .boolean => .boolean
  | .string => .object "java/lang/String"
  | .classRef name => .object (cs.classPath name)
  | t => .other (cs.jtype t)

/-- A field of a class. -/
structure FieldRef where
  owner : String
  name : String
  type : JType
deriving DecidableEq, Repr, Inhabited

/-- A field with its descriptor. -/
def FieldRef.text (f : FieldRef) : String := f.owner ++ "/" ++ f.name ++ " " ++ f.type.text

/-- A method of a class. -/
structure MethodRef where
  owner : String
  name : String
  type : MethodType
deriving DecidableEq, Repr, Inhabited

/-- A method with its descriptor. -/
def MethodRef.text (m : MethodRef) : String := m.owner ++ "/" ++ m.name ++ m.type.text

/-! ## Instructions -/

/-- An instruction, or a label. -/
inductive Instr where
  | const (value : Int32)
  | load (family : Family) (register : UInt16)
  | store (family : Family) (register : UInt16)
  | loadElement (sort : ElementSort)
  | storeElement (sort : ElementSort)
  | arith (op : Arith)
  | xor
  | pop
  | arrayLength
  | newObject (path : String)
  | newArray (component : Component)
  | getField (field : FieldRef)
  | putField (field : FieldRef)
  /-- A call that takes so many arguments besides the receiver. -/
  | invoke (invocation : Invocation) (method : MethodRef) (arguments : Nat)
  | goto (target : String)
  /-- Jump unless the value is 0. -/
  | ifTrue (target : String)
  | ifCompare (comparison : Comparison) (target : String)
  | ret
  | retValue (family : Family)
  | label (name : String)
deriving DecidableEq, Repr, Inhabited

namespace Instr

/-- The instruction that loads or stores a register; the first four have one of their own each. -/
def registerText (op : String) (family : Family) (register : UInt16) : String :=
  family.letter ++ op ++ (if register < 4 then "_" else " ") ++ toString register.toNat

/-- The shortest instruction for a constant. -/
def constText (value : Int32) : String :=
  let n := value.toInt
  if n = -1 then "iconst_m1"
  else if 0 ≤ n ∧ n ≤ 5 then "iconst_" ++ toString n
  else if -128 ≤ n ∧ n ≤ 127 then "bipush " ++ toString n
  else if -32768 ≤ n ∧ n ≤ 32767 then "sipush " ++ toString n
  else "ldc " ++ toString n

/-- The text of an instruction. -/
def text : Instr → String
  | const value => constText value
  | load family register => registerText "load" family register
  | store family register => registerText "store" family register
  | loadElement sort => sort.letter ++ "aload"
  | storeElement sort => sort.letter ++ "astore"
  | arith op => op.name
  | xor => "ixor"
  | pop => "pop"
  | arrayLength => "arraylength"
  | newObject path => "new " ++ path
  | newArray component => component.text
  | getField field => "getfield " ++ field.text
  | putField field => "putfield " ++ field.text
  | invoke invocation method _ => invocation.name ++ " " ++ method.text
  | goto target => "goto " ++ target
  | ifTrue target => "ifne " ++ target
  | ifCompare comparison target => comparison.name ++ " " ++ target
  | ret => "return"
  | retValue family => family.letter ++ "return"
  | label name => name ++ ":"

end Instr

end MiniJava.Jvm
