import MiniJava.Text.Layout
import MiniJava.Ty

/-!
# Symbol tables

What a program declares: its imports, its class with an optional superclass, the fields, and for
each method its result, parameters and local variables. What is known of methods is kept by name, in
a `MethodTable`, which `MethodTable.add` fills (`add_method`): of several methods with one name the
first counts.

Imports are known by their simple name, the part of the path behind the last dot
(`import_simple_name`). The result of `main` is `void` whatever its declaration says. The queries
about methods are the ones that may have no answer (`try_return_type` and its likes); with
`SymbolTable.demand` they are the strict ones.
-/

namespace MiniJava

/-- The part of a path behind the last dot. -/
def simpleName (path : String) : String :=
  String.ofList (path.toList.reverse.takeWhile (· != '.')).reverse

/-- A name with a type: a field, a parameter or a local variable. -/
structure Variable where
  name : String
  type : Ty
deriving DecidableEq, Repr, Inhabited

/-- Type and name. -/
def Variable.text (v : Variable) : String := v.type.text ++ " " ++ v.name

/-- What is known of a method. -/
structure Signature where
  name : String
  returnType : Ty
  params : List Variable
  locals : List Variable
  /-- The last parameter takes any number of arguments. -/
  isVarargs : Bool
deriving DecidableEq, Repr, Inhabited

/-- What is known of methods. -/
structure MethodTable where
  /-- The names in the order of the declarations, with repetitions. -/
  names : List String := []
  /-- The results, but that of `main`. -/
  returnTypes : List (String × Ty) := []
  params : List (String × List Variable) := []
  locals : List (String × List Variable) := []
  /-- The methods whose last parameter takes any number of arguments. -/
  varargs : List String := []
deriving DecidableEq, Repr, Inhabited

namespace MethodTable

/-- Take up a method. Behind another of its name, it is only counted among the names. -/
def add (t : MethodTable) (s : Signature) : MethodTable :=
  let names := t.names ++ [s.name]
  if (t.params.lookup s.name).isSome then { t with names }
  else
    { names
      returnTypes :=
        if s.name = "main" then t.returnTypes else (s.name, s.returnType) :: t.returnTypes
      params := (s.name, s.params) :: t.params
      locals := (s.name, s.locals) :: t.locals
      varargs := if s.isVarargs then s.name :: t.varargs else t.varargs }

/-- What is known of methods when these are taken up one after the other. -/
def ofSignatures (ss : List Signature) : MethodTable := ss.foldl add {}

end MethodTable

/-- The declarations of a program. -/
structure SymbolTable where
  imports : List String := []
  className : String := ""
  superclass : Option String := none
  fields : List Variable := []
  /-- The methods as they were taken up. The queries do not look at these. -/
  signatures : List Signature := []
  methodTable : MethodTable := .ofSignatures signatures
  methodTable_eq : methodTable = .ofSignatures signatures := by rfl
deriving DecidableEq, Repr, Inhabited

/-- A question about a method that is not declared. -/
structure UnknownMethod where
  name : String
deriving DecidableEq, Repr, Inhabited

/-- The message for an unknown method. -/
def UnknownMethod.message (e : UnknownMethod) : String :=
  "method '" ++ e.name ++ "' is not declared"

namespace SymbolTable

/-! ## Classes -/

/-- The path of the first import with this simple name. -/
def qualifiedImport? (t : SymbolTable) (name : String) : Option String :=
  t.imports.find? (simpleName · == name)

/-- Some import has this simple name. -/
def isImported (t : SymbolTable) (name : String) : Bool := (t.qualifiedImport? name).isSome

/-- The type of instances of the class of the program. -/
def classType (t : SymbolTable) : Ty := .ofClass t.className

/-- The field of this name. -/
def field? (t : SymbolTable) (name : String) : Option Variable :=
  t.fields.find? (·.name == name)

/-! ## Methods -/

/-- The names of the methods in the order of their declarations, with repetitions. -/
def methods (t : SymbolTable) : List String := t.methodTable.names

/-- A method of this name is declared. -/
def hasMethod (t : SymbolTable) (method : String) : Bool := t.methods.any (· == method)

/-- The result of a method. -/
def returnType? (t : SymbolTable) (method : String) : Option Ty :=
  if method == "main" then some .void else t.methodTable.returnTypes.lookup method

/-- The parameters of a method. -/
def params? (t : SymbolTable) (method : String) : Option (List Variable) :=
  t.methodTable.params.lookup method

/-- The local variables of a method. -/
def locals? (t : SymbolTable) (method : String) : Option (List Variable) :=
  t.methodTable.locals.lookup method

/-- The last parameter of the method takes any number of arguments. -/
def isVarargs (t : SymbolTable) (method : String) : Bool := t.methodTable.varargs.contains method

/-- What is known of a method that should be declared. -/
def demand {α : Type} (method : String) : Option α → Except UnknownMethod α
  | some a => .ok a
  | none => .error ⟨method⟩

/-! ## Summary -/

/-- The line for one method. -/
def methodLine (t : SymbolTable) (method : String) : String :=
  let params := ((t.params? method).getD []).map Variable.text
  "  method " ++ ((t.returnType? method).getD .void).text ++ " " ++ method ++ "(" ++
    String.intercalate ", " params ++ ")"

/-- The declarations on one line each. -/
def lines (t : SymbolTable) : List String :=
  let head := match t.superclass with
    | some s => "class " ++ t.className ++ " extends " ++ s
    | none => "class " ++ t.className
  t.imports.map ("import " ++ ·) ++ head :: t.fields.map (fun f => "  field " ++ f.text) ++
    t.methods.map t.methodLine

/-- The declarations on lines that are closed by a line feed. -/
def text (t : SymbolTable) : String := joinLines t.lines

end SymbolTable

end MiniJava
