import MiniJava.Check.Walk
import MiniJava.SymbolTable.OfTree

/-!
# Rules of structure

The rules of the `StructureChecker`:

* Only the last parameter takes a row of arguments, and no field or local variable does.
* `main` is static and no other method is; a static method uses neither `this` nor assigns a field.
* A class that is used is imported or is the class of the program.
* A method with a result returns on every path. Only the last statement counts: a `return`, an `if`
  whose two branches both return, or a block that ends with one of these.
-/

namespace MiniJava

mutual

/-- After this statement the method has returned. -/
def Node.alwaysReturns : Node → Bool
  | ⟨_, _, .returning _⟩ => true
  | ⟨_, _, .ifElse _ thenBranch (some elseBranch)⟩ =>
    thenBranch.alwaysReturns && elseBranch.alwaysReturns
  | ⟨_, _, .block statements⟩ => lastReturns statements
  | _ => false
termination_by structural n => n

/-- After the last of these statements the method has returned. -/
def lastReturns : List Node → Bool
  | [] => false
  | [n] => n.alwaysReturns
  | _ :: n :: ns => lastReturns (n :: ns)
termination_by structural ns => ns

end

namespace SymbolTable

/-- The class is imported or that of the program. -/
def isKnownClass (t : SymbolTable) (name : String) : Bool :=
  name == t.className || t.isImported name

/-- The error that a written type at a node names an unknown class. -/
def checkType (t : SymbolTable) (n : Node) (type : TypeExpr) : List SemanticError :=
  match type.className? with
  | some name => if t.isKnownClass name then [] else [n.violates (.classNotDeclared name)]
  | none => []

end SymbolTable

/-- In this scope, a name that means nothing only because fields are out of reach. -/
def Scope.isHiddenField (sc : Scope) (name : String) : Bool :=
  sc.isStatic && (sc.lookup? name).isNone && (sc.table.field? name).isSome

/-- The parameters in front of the last that take a row of arguments, as errors. -/
def checkVarargsPlace (params : List Node) : List SemanticError :=
  (params.dropLast.filter SymbolTable.isVarargsParam).map (·.violates .varargsNotLast)

/-- What one node does wrong. -/
def checkStructureAt (t : SymbolTable) : Option Scope × Node → List SemanticError
  | (scope?, n) =>
    match n.kind with
    | .varDecl name type =>
      (if type.isVarargs then [n.violates (.varargsNotAllowed name)] else []) ++ t.checkType n type
    | .param _ type => t.checkType n type
    | .methodDecl head params _ body =>
      (if head.name == "main" && !head.isStatic then [n.violates .mainNotStatic]
        else if head.name != "main" && head.isStatic then
          [n.violates (.unexpectedStatic head.name)]
        else []) ++
      t.checkType n head.returnType ++ checkVarargsPlace params ++
      (if head.returnType ≠ .void && !lastReturns body then
          [n.violates (.missingReturn head.name)]
        else [])
    | .this =>
      if (scope?.map Scope.isStatic).getD false then [n.violates .thisInStaticMethod] else []
    | .newObject className =>
      if t.isKnownClass className then [] else [n.violates (.classNotDeclared className)]
    | .newArray element _ => t.checkType n element
    | .assign target _ | .arrayAssign target _ _ =>
      match scope? with
      | some sc =>
        if sc.isHiddenField target then [n.violates (.fieldInStaticMethod target)] else []
      | none => []
    | _ => []

/-- The rules of structure that a program breaks. -/
def checkStructure (scopeOf : ScopeOf) (t : SymbolTable) (root : Node) : List SemanticError :=
  (walk scopeOf root).flatMap (checkStructureAt t)

end MiniJava
