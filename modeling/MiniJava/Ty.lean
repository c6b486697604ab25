import MiniJava.Tree.TypeExpr

/-!
# Types

A type is a name and whether it is an array; an array of arrays is the same as an array. The names
`int`, `boolean` and `void` are primitive, every other name is that of a class. `String` is a class
here. `Ty.ofExpr` is the type that is written (`TypeExpr`); whether it is an array or a row of
arguments makes no difference to it.
-/

namespace MiniJava

/-- The type of a value or variable. -/
structure Ty where
  name : String
  isArray : Bool := false
deriving DecidableEq, Repr, Inhabited

namespace Ty

/-- The type of integers. -/
def int : Ty := ⟨"int", false⟩

/-- The type of truth values. -/
def boolean : Ty := ⟨"boolean", false⟩

/-- What a method without result returns. -/
def void : Ty := ⟨"void", false⟩

/-- Arrays of integers. -/
def intArray : Ty := ⟨"int", true⟩

/-- Instances of a class. -/
def ofClass (name : String) : Ty := ⟨name, false⟩

/-- The class above all others. -/
def object : Ty := ofClass "Object"

/-- What the elements of an array are. -/
def element (t : Ty) : Ty := ⟨t.name, false⟩

/-- Arrays with elements of this type. -/
def array (t : Ty) : Ty := ⟨t.name, true⟩

/-- The type of integers, not of arrays. -/
def isInt (t : Ty) : Bool := !t.isArray && t.name == "int"

/-- The type of truth values, not of arrays. -/
def isBoolean (t : Ty) : Bool := !t.isArray && t.name == "boolean"

/-- No value at all. -/
def isVoid (t : Ty) : Bool := !t.isArray && t.name == "void"

/-- The name is that of no class. This holds for arrays as well. -/
def isPrimitiveName (t : Ty) : Bool := t.name == "int" || t.name == "boolean" || t.name == "void"

/-- Instances of a class, not arrays. -/
def isObject (t : Ty) : Bool := !t.isArray && !t.isPrimitiveName

/-- How a type is written. -/
def text (t : Ty) : String := if t.isArray then t.name ++ "[]" else t.name

/-- The type that a program writes. -/
def ofExpr (t : TypeExpr) : Ty := ⟨t.baseName, t.isArray⟩

end Ty

end MiniJava
