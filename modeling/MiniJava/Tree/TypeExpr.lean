/-!
# Types as they are written

A written type is a basic type, a class, an array of a type, or a row of arguments of a type
(`int...`). In a syntax tree arrays are not nested, but the type itself allows it.
-/

namespace MiniJava

/-- A type as a program writes it. -/
inductive TypeExpr where
  | int
  | boolean
  | string
  | void
  | named (name : String)
  | array (element : TypeExpr)
  | varargs (element : TypeExpr)
deriving DecidableEq, Repr, Inhabited

namespace TypeExpr

/-- The type that a word stands for; a word that is no basic type names a class. -/
def ofWord : String → TypeExpr
  | "int" => int
  | "boolean" => boolean
  | "String" => string
  | "void" => void
  | name => named name

/-- The word for the innermost element type. -/
def baseName : TypeExpr → String
  | int => "int"
  | boolean => "boolean"
  | string => "String"
  | void => "void"
  | named name => name
  | array t | varargs t => t.baseName

/-- Several values of one type, in an array or as a row of arguments. -/
def isArray : TypeExpr → Bool
  | array _ | varargs _ => true
  | _ => false

/-- A row of arguments. -/
def isVarargs : TypeExpr → Bool
  | varargs _ => true
  | _ => false

/-- The class that the type or its innermost element type names. -/
def className? : TypeExpr → Option String
  | named name => some name
  | array t | varargs t => t.className?
  | _ => none

/-- How the type is written. -/
def text : TypeExpr → String
  | array t => t.text ++ "[]"
  | varargs t => t.text ++ "..."
  | t => t.baseName

end TypeExpr

end MiniJava
