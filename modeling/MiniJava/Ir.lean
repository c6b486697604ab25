import MiniJava.Ty

/-!
# Three-address code

The intermediate form of a program (`ClassUnit`): a method is a list of instructions, each of which
computes one operation on variables and literals. Control flow is by labels and jumps. Everything
carries its type (`ElementType`); truth values are the integers 0 and 1.
-/

namespace MiniJava.Ir

/-! ## Types -/

/-- The type of an operand. -/
inductive IrType where
  | int32
  | boolean
  | void
  | string
  | array (element : IrType)
  /-- Instances of a class, by its simple name. -/
  | classRef (name : String)
deriving DecidableEq, Repr, Inhabited

namespace IrType

/-- Arrays of integers. -/
def intArray : IrType := array int32

/-- What the elements of an array are. What is no array is its own element. -/
def element : IrType → IrType
  | array t => t
  | t => t

/-- Values of this type are references to objects. -/
def isReference : IrType → Bool
  | string | array _ | classRef _ => true
  | _ => false

/-- The type that a name stands for. -/
def ofName (name : String) : IrType :=
  match name with
  | "int" => int32
  | "boolean" => boolean
  | "void" => void
  | "String" => string
  | name => classRef name

/-- The type of an operand that holds values of a type of the program. -/
def ofTy (t : Ty) : IrType := if t.isArray then array (ofName t.name) else ofName t.name

end IrType

/-! ## Operands -/

/-- A variable or field with its type. -/
structure Var where
  name : String
  type : IrType
deriving DecidableEq, Repr, Inhabited

/-- What an instruction works on. -/
inductive Operand where
  | literal (value : Int32) (type : IrType)
  | var (v : Var)
  /-- The object whose method is running, of the class of the program. -/
  | this (className : String)
  /-- An imported class, as the receiver of a static call. -/
  | classRef (name : String)
deriving DecidableEq, Repr, Inhabited

namespace Operand

/-- An integer. -/
def int (value : Int32) : Operand := literal value .int32

/-- A truth value. -/
def bool (value : Bool) : Operand := literal (if value then 1 else 0) .boolean

/-- The type of an operand. -/
def type : Operand → IrType
  | literal _ t => t
  | var v => v.type
  | this className => .classRef className
  | classRef name => .classRef name

end Operand

/-! ## Operations -/

/-- The binary operations. -/
inductive BinOp where
  | add
  | sub
  | mul
  | div
  | lt
  | gt
  | le
  | ge
  | eq
  | ne
deriving DecidableEq, Repr, Inhabited

namespace BinOp

/-- How an operation is written. -/
def symbol : BinOp → String
  | add => "+"
  | sub => "-"
  | mul => "*"
  | div => "/"
  | lt => "<"
  | gt => ">"
  | le => "<="
  | ge => ">="
  | eq => "=="
  | ne => "!="

/-- Every operation. -/
def all : List BinOp := [add, sub, mul, div, lt, gt, le, ge, eq, ne]

/-- The operation written this way. -/
def ofSymbol? (s : String) : Option BinOp := all.find? (·.symbol == s)

/-- The result is a truth value. -/
def isComparison : BinOp → Bool
  | add | sub | mul | div => false
  | _ => true

/-- The type of the result. -/
def resultType (op : BinOp) : IrType := if op.isComparison then .boolean else .int32

end BinOp

/-- How a method is found. -/
inductive Invocation where
  /-- By the class alone. -/
  | static
  /-- By the class of the receiver when the program runs. -/
  | virtual
  /-- Constructors. -/
  | special
deriving DecidableEq, Repr, Inhabited

/-- The name of an invocation. -/
def Invocation.name : Invocation → String
  | static => "invokestatic"
  | virtual => "invokevirtual"
  | special => "invokespecial"

/-- A call of a method. -/
structure Call where
  invocation : Invocation
  target : Operand
  method : String
  arguments : List Operand
  returnType : IrType
  /-- The types of the parameters, if the method is declared in the program. -/
  paramTypes : Option (List IrType)
deriving DecidableEq, Repr, Inhabited

namespace Call

/-- The call of a constructor without parameters. -/
def construct (target : Operand) : Call := ⟨.special, target, "<init>", [], .void, some []⟩

/-- The types of the parameters; those of the arguments stand in for unknown ones. -/
def signature (c : Call) : List IrType := c.paramTypes.getD (c.arguments.map Operand.type)

end Call

/-- What can be assigned to a variable. -/
inductive Rhs where
  | single (value : Operand)
  | binary (op : BinOp) (left right : Operand)
  | not (operand : Operand)
  | call (c : Call)
  | getField (object : Operand) (field : Var)
  | arrayLoad (array : Var) (index : Operand)
  | arrayLength (array : Var)
  | newObject (className : String)
  /-- Here `type` is that of the array. -/
  | newArray (size : Operand) (type : IrType)
deriving DecidableEq, Repr, Inhabited

/-- The type of the value that is assigned. -/
def Rhs.type : Rhs → IrType
  | single value => value.type
  | binary op _ _ => op.resultType
  | not _ => .boolean
  | call c => c.returnType
  | getField _ field => field.type
  | arrayLoad array _ => array.type.element
  | arrayLength _ => .int32
  | newObject className => .classRef className
  | newArray _ t => t

/-! ## Instructions -/

/-- One step of a method. -/
inductive Instr where
  | assign (dest : Var) (value : Rhs)
  | arrayStore (array : Var) (index value : Operand)
  | putField (object : Operand) (field : Var) (value : Operand)
  /-- A call whose result is dropped. -/
  | call (c : Call)
  | goto (target : String)
  /-- Jump if the condition is true. -/
  | branch (condition : Operand) (target : String)
  | ret (value : Option Operand)
  | label (name : String)
deriving DecidableEq, Repr, Inhabited

/-- The next instruction does not run behind this one. -/
def Instr.isTerminator : Instr → Bool
  | goto _ | ret _ => true
  | _ => false

/-- A row of instructions. -/
abbrev Code := List Instr

/-- The code of a method. -/
structure Method where
  name : String
  isPublic : Bool
  isStatic : Bool
  params : List Var
  returnType : IrType
  code : Code
deriving DecidableEq, Repr, Inhabited

/-- The code of a class. -/
structure ClassUnit where
  /-- Dotted paths. -/
  imports : List String
  name : String
  superclass : Option String
  fields : List Var
  methods : List Method
deriving DecidableEq, Repr, Inhabited

end MiniJava.Ir
