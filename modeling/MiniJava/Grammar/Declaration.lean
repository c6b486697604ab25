import MiniJava.Grammar.Statement

/-!
# The grammar of declarations

Types, imports, variables, parameters, methods, classes, and a whole program (`type_parser` to
`program_parser`): any number of imports and classes in any order. That the imports come first and
that there is one class is not a matter of grammar.
-/

namespace MiniJava.Grammar

open MiniJava.Parser

/-! ## Types -/

/-- A raw node for a written type. It has no position. -/
def typeNode (kind : String) (attributes : List (String × String)) (children : List RawNode) :
    RawNode := .place kind none attributes children

/-- A basic type. -/
def basicType : Parser RawNode := satisfy [] fun
  | .keyword .intKw => some (typeNode "IntType" [] [])
  | .keyword .booleanKw => some (typeNode "BooleanType" [] [])
  | .keyword .stringKw => some (typeNode "StringType" [] [])
  | .keyword .voidKw => some (typeNode "VoidType" [] [])
  | _ => none

/-- The name of a class. -/
def classType : Parser RawNode := do
  let name ← ident
  return typeNode "ClassType" [("value", name)] []

/-- The brackets `[]` behind an element type. -/
def arraySuffix : Parser String := do
  punct .openBracket
  punct .closeBracket
  return "ArrayType"

/-- The dots `...` behind an element type. -/
def varargsSuffix : Parser String := do
  punct .ellipsis
  return "VarArgsType"

/-- A type. -/
def writtenType : Parser RawNode := do
  let element ← basicType <|> classType
  let suffix ← optional (arraySuffix <|> varargsSuffix)
  return match suffix with
    | some kind => typeNode kind [] [element]
    | none => element

/-! ## Declarations -/

/-- An import: `import a.b.C;` -/
def importDecl : Parser RawNode := do
  let start ← here
  keyword .importKw
  let segments ← sepBy1 ident (punct .dot)
  punct .semicolon
  return .atOffset start "ImportDeclaration" [("value", String.intercalate "." segments)] []

/-- A field or a local variable. -/
def varDecl : Parser RawNode := do
  let start ← here
  let type ← writtenType
  let name ← ident
  punct .semicolon
  return .atOffset start "VarDecl" [("name", name)] [type]

/-- A parameter. -/
def param : Parser RawNode := do
  let start ← here
  let type ← writtenType
  let name ← ident
  return .atOffset start "Param" [("name", name)] [type]

/-- The text of a flag. -/
def flagText (b : Bool) : String := if b then "true" else "false"

/-- A method: `public static t m(..)` with a body. Both words may be missing. -/
def methodDecl : Parser RawNode := do
  let start ← here
  let isPublic ← optional (keyword .publicKw)
  let isStatic ← optional (keyword .staticKw)
  let type ← writtenType
  let name ← ident
  let params ← between .openParen .closeParen (sepBy param (punct .comma))
  let body ← between .openBrace .closeBrace (many (varDecl <|> statement))
  return .atOffset start "MethodDecl"
    [("methodName", name), ("isPublic", flagText isPublic.isSome),
      ("isStatic", flagText isStatic.isSome)]
    (type :: params ++ body)

/-- A class: `class A` with or without `extends B`, and its members. -/
def classDecl : Parser RawNode := do
  let start ← here
  keyword .classKw
  let name ← ident
  let superclass ← optional (do keyword .extendsKw; ident)
  let members ← between .openBrace .closeBrace (many (varDecl <|> methodDecl))
  return .atOffset start "ClassDecl"
    (("name", name) :: superclass.toList.map fun s => ("ext", s)) members

/-- A whole program, up to the end of the text. -/
def program : Parser RawNode := do
  let start ← here
  let items ← many (importDecl <|> classDecl)
  endOfInput
  return .atOffset start "Program" [] items

end MiniJava.Grammar
