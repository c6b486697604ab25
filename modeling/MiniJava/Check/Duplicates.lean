import MiniJava.Check.Walk

/-!
# Names declared twice

Each name may be declared once among the imports, the fields, the methods, the parameters of a
method and the local variables of a method. Every further declaration is an error. Imports count by
their simple name. This is the `DuplicateChecker`.
-/

namespace MiniJava

/-- The declarations whose name is among `seen` or was declared before. -/
def repeats (seen : List String) : List (String × Position) → List (String × Position)
  | [] => []
  | (name, p) :: rest =>
    if seen.contains name then (name, p) :: repeats seen rest
    else repeats (name :: seen) rest

/-- The further declarations of a name among some nodes, as errors. -/
def duplicatesAmong (violation : String → Violation) (ns : List Node) : List SemanticError :=
  let declared := ns.filterMap fun n => n.kind.declaredName?.map fun name => (name, n.position)
  (repeats [] declared).map fun (name, p) => ⟨violation name, p⟩

/-- The names declared twice among some nodes, when the imports in front of them are `seen`. -/
def duplicatesFrom (seen : List String) : List Node → List SemanticError
  | [] => []
  | n :: ns =>
    match n.kind with
    | .importDecl path =>
      let name := simpleName path
      if seen.contains name then n.violates (.duplicateImport name) :: duplicatesFrom seen ns
      else duplicatesFrom (name :: seen) ns
    | .classDecl _ _ fields methods =>
      duplicatesAmong .duplicateField fields ++ duplicatesAmong .duplicateMethod methods ++
        duplicatesFrom seen ns
    | .methodDecl _ params locals _ =>
      duplicatesAmong .duplicateParameter params ++ duplicatesAmong .duplicateLocal locals ++
        duplicatesFrom seen ns
    | _ => duplicatesFrom seen ns

/-- The names declared twice in a program. -/
def checkDuplicates (root : Node) : List SemanticError := duplicatesFrom [] root.preorder

end MiniJava
