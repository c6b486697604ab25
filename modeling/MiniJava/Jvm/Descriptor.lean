import MiniJava.Ir
import MiniJava.SymbolTable

/-!
# Descriptors

Assembly names classes by their paths, with slashes, and types by descriptors: `I` for an integer,
`[Z` for an array of truth values, `Ljava/lang/String;` for a class. A class that is not imported
keeps its name, apart from `Object` and `String`. `ClassNames` is what `Descriptors` looks names up
in; `ClassNames.classPath` is its `class_path`, and the text of `ClassNames.jtype` is its
`type_descriptor`.
-/

namespace MiniJava.Jvm

open Ir

/-! ## Classes -/

/-- What is known of the names of classes: the class of the program and the imports. -/
structure ClassNames where
  className : String
  imports : List String
deriving Repr, Inhabited

namespace ClassNames

/-- The names known in a class. -/
def ofUnit (u : ClassUnit) : ClassNames := ⟨u.name, u.imports⟩

/-- A dotted path with slashes. -/
def slashed (path : String) : String := path.map fun c => if c = '.' then '/' else c

/-- The path of a class. -/
def classPath (cs : ClassNames) (name : String) : String :=
  if name = cs.className then name
  else
    match cs.imports.find? (simpleName · == name) with
    | some path => slashed path
    | none =>
      if name = "Object" then "java/lang/Object"
      else if name = "String" then "java/lang/String"
      else name

/-- The path of the superclass, `Object` if there is none. -/
def superPath (cs : ClassNames) (superclass : Option String) : String :=
  cs.classPath (superclass.getD "Object")

end ClassNames

/-! ## Types -/

/-- A type as a descriptor shows it. -/
inductive JType where
  | int
  | boolean
  | void
  | array (element : JType)
  | object (path : String)
deriving DecidableEq, Repr, Inhabited

/-- The descriptor of a type. -/
def JType.text : JType → String
  | int => "I"
  | boolean => "Z"
  | void => "V"
  | array t => "[" ++ t.text
  | object path => "L" ++ path ++ ";"

/-- The type of values of a type of three-address code. -/
def ClassNames.jtype (cs : ClassNames) : IrType → JType
  | .int32 => .int
  | .boolean => .boolean
  | .void => .void
  | .string => .object "java/lang/String"
  | .array t => .array (cs.jtype t)
  | .classRef name => .object (cs.classPath name)

/-- The parameters and the result of a method. -/
structure MethodType where
  params : List JType
  result : JType
deriving DecidableEq, Repr, Inhabited

/-- The descriptor of a method. -/
def MethodType.text (t : MethodType) : String :=
  "(" ++ String.join (t.params.map JType.text) ++ ")" ++ t.result.text

/-- The type of a method. -/
def ClassNames.methodType (cs : ClassNames) (params : List IrType) (result : IrType) : MethodType :=
  ⟨params.map cs.jtype, cs.jtype result⟩

end MiniJava.Jvm
