import MiniJava.Diagnostic

/-!
# Violations

What a program can do wrong although its syntax is right. A `Violation` is the rule that is broken,
with the names and types involved; a `SemanticError` adds where, and `toDiagnostic` words it
(`to_diagnostic`).
-/

namespace MiniJava

/-- The statements that have a condition. -/
inductive Construct where
  | ifElse
  | whileLoop
deriving DecidableEq, Repr, Inhabited

/-- The word that begins the statement. -/
def Construct.word : Construct → String
  | ifElse => "if"
  | whileLoop => "while"

/-- A rule that a program breaks. Types are given as they are written. -/
inductive Violation where
  | duplicateMethod (name : String)
  | duplicateField (name : String)
  | duplicateLocal (name : String)
  | duplicateParameter (name : String)
  | duplicateImport (name : String)
  | varargsNotLast
  | varargsNotAllowed (name : String)
  | thisInStaticMethod
  | mainNotStatic
  | unexpectedStatic (name : String)
  | classNotDeclared (name : String)
  | fieldInStaticMethod (name : String)
  | missingReturn (method : String)
  | binaryOperandMismatch (left right : String)
  | invalidOperand (op found : String)
  | conditionNotBoolean (construct : Construct)
  | assignmentMismatch (name expected found : String)
  | notAnArray (name : String)
  | indexNotInteger (found : String)
  | arrayElementMismatch (name : String)
  | arrayCreationMismatch
  | returnMismatch (method expected found : String)
  | undeclaredVariable (name : String)
  | undeclaredMethod (name : String)
  | invalidReceiver (method type : String)
  | argumentCount (method : String) (expected found : Nat)
  | argumentMismatch (method expected found : String)
deriving DecidableEq, Repr, Inhabited

namespace Violation

/-- The message for a violation. -/
def message : Violation → String
  | duplicateMethod name => "Method " ++ name ++ " is duplicated"
  | duplicateField name => "Field " ++ name ++ " is duplicated"
  | duplicateLocal name => "Local Variable " ++ name ++ " is duplicated"
  | duplicateParameter name => "Parameter " ++ name ++ " is duplicated"
  | duplicateImport name => "Import " ++ name ++ " is duplicated"
  | varargsNotLast => "Varargs must be the last parameter declared"
  | varargsNotAllowed name => "Varargs cannot be defined in the declaration of " ++ name
  | thisInStaticMethod => "Cannot use this token in a static method"
  | mainNotStatic => "Main method not declared static."
  | unexpectedStatic name => "Method " ++ name ++ " declared static."
  | classNotDeclared name => "Class " ++ name ++ " not declared"
  | fieldInStaticMethod _ => "Cannot assign a value to a non static field in a static method"
  | missingReturn method => "Method " ++ method ++ " can reach its end without returning a value"
  | binaryOperandMismatch left right =>
    "Type mismatch in the Binary Expression " ++ right ++ " with " ++ left
  | invalidOperand op found => "Operator '" ++ op ++ "' cannot be applied to " ++ found
  | conditionNotBoolean construct =>
    "Type mismatch in the condition of the " ++ construct.word ++ " statement"
  | assignmentMismatch name _ _ => "Type mismatch in the assignment of the variable " ++ name
  | notAnArray name => "Variable " ++ name ++ " is not an array"
  | indexNotInteger found => "Array index must be an integer, found " ++ found
  | arrayElementMismatch name => "Type mismatch in the Assignment of the Array " ++ name
  | arrayCreationMismatch => "Type mismatch in the array creation expression"
  | returnMismatch method expected found =>
    "Type mismatch in the return of method " ++ method ++ ": expected " ++ expected ++ ", found " ++
      found
  | undeclaredVariable name => "Variable " ++ name ++ " not declared"
  | undeclaredMethod name => "Method " ++ name ++ " not declared"
  | invalidReceiver method type => "Cannot invoke method " ++ method ++ " on type " ++ type
  | argumentCount method expected found =>
    "Invalid number of parameters in call to " ++ method ++ ": expected " ++ toString expected ++
      ", found " ++ toString found
  | argumentMismatch method _ _ => "Type mismatch in the parameters of the method " ++ method

/-- The note that goes with a violation. -/
def notes : Violation → List String
  | assignmentMismatch _ expected found | argumentMismatch _ expected found =>
    ["expected '" ++ expected ++ "', found '" ++ found ++ "'"]
  | _ => []

/-- How to mend a violation. -/
def suggestions : Violation → List Suggestion
  | undeclaredVariable name =>
    [{ message := "declare '" ++ name ++ "' as a field, parameter or local" }]
  | classNotDeclared name =>
    [{ message := "add an import for '" ++ name ++ "'"
       replacement := some ("import " ++ name ++ ";") }]
  | _ => []

end Violation

/-- A violation at a place. -/
structure SemanticError where
  violation : Violation
  position : Position
deriving DecidableEq, Repr, Inhabited

namespace SemanticError

/-- The message for a semantic error. -/
def message (e : SemanticError) : String := e.violation.message

/-- The diagnostic for a semantic error. -/
def toDiagnostic (e : SemanticError) : Diagnostic :=
  { (Diagnostic.error .semantic e.message).pointAt e.position with
    notes := e.violation.notes
    suggestions := e.violation.suggestions }

end SemanticError

end MiniJava
