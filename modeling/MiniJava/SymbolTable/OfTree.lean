import MiniJava.SymbolTable
import MiniJava.Tree

/-!
# The symbol table of a tree

`SymbolTable.ofTree?` collects the declarations of a program (`SymbolTable::build`). It fails if
there is no class or more than one, if an import follows the class, and if the superclass is not
imported (`SymbolTableError`). Repeated names are no failure here.
-/

namespace MiniJava

/-- Why a tree has no symbol table. -/
inductive SymbolTableError where
  | importAfterClass
  | multipleClasses (name : String)
  | missingClass
  | extendsNotImported (name : String)
deriving DecidableEq, Repr, Inhabited

/-- The message for a missing symbol table. -/
def SymbolTableError.message : SymbolTableError → String
  | importAfterClass => "imports must precede the class declaration"
  | multipleClasses name =>
    "only one class may be declared per file, found a second class '" ++ name ++ "'"
  | missingClass => "no class declaration found"
  | extendsNotImported name => "You cant extend a class that you didnt import: " ++ name

namespace SymbolTable

/-- What the head and the members of a class are. -/
structure ClassParts where
  name : String
  superclass : Option String
  fields : List Node
  methods : List Node

/-- The imports and the only class among the children of the root. -/
def topLevel : List Node → (imports : List String) → Option ClassParts →
    Except SymbolTableError (List String × ClassParts)
  | [], imports, some c => .ok (imports.reverse, c)
  | [], _, none => .error .missingClass
  | n :: ns, imports, c? =>
    match n.kind, c? with
    | .importDecl _, some _ => .error .importAfterClass
    | .importDecl path, none => topLevel ns (path :: imports) none
    | .classDecl name _ _ _, some _ => .error (.multipleClasses name)
    | .classDecl name superclass fields methods, none =>
      topLevel ns imports (some ⟨name, superclass, fields, methods⟩)
    | _, _ => topLevel ns imports c?

/-- The variable that a declaration introduces. -/
def declared? (n : Node) : Option Variable :=
  match n.kind with
  | .varDecl name type | .param name type => some ⟨name, .ofExpr type⟩
  | _ => none

/-- A parameter for any number of arguments. -/
def isVarargsParam (n : Node) : Bool :=
  match n.kind with
  | .param _ type => type.isVarargs
  | _ => false

/-- The signature that a declaration introduces. -/
def signatureOf? (n : Node) : Option Signature :=
  match n.kind with
  | .methodDecl head params locals _ =>
    some
      { name := head.name
        returnType := .ofExpr head.returnType
        params := params.filterMap declared?
        locals := locals.filterMap declared?
        isVarargs := (params.getLast?.map isVarargsParam).getD false }
  | _ => none

/-- The declarations of a program. -/
def ofTree? (root : Node) : Except SymbolTableError SymbolTable := do
  let (imports, c) ← topLevel root.children [] none
  if let some s := c.superclass then
    if !imports.any (simpleName · == s) then throw (.extendsNotImported s)
  return {
    imports
    className := c.name
    superclass := c.superclass
    fields := c.fields.filterMap declared?
    signatures := c.methods.filterMap signatureOf? }

end SymbolTable

end MiniJava
