import MiniJava.Check.Walk
import MiniJava.Typing.Compatible

/-!
# Rules of names

The rules of the `ResolutionChecker`. Every variable that is read or assigned means something. A
method that is called on an instance of the class of the program is declared there, unless a
superclass may have it, and gets arguments of fitting number and types. A method with a row of
arguments takes for the last parameter either one array or any number of its elements. Nothing is
known of the methods of other classes, but a primitive value has none.
-/

namespace MiniJava

namespace Scope

variable (sc : Scope)

/-- The arguments of a call with what is known of their types. -/
def argumentTypes (receiver : Node) (method : String) (arguments : List Node) :
    List (Option Ty) :=
  arguments.zipWith (fun a d => sc.typeOf? d a) (sc.argumentDemands receiver method arguments)

/-- The error that an argument does not fit a type. -/
def checkArgument (n : Node) (method : String) (expected : Ty) (found : Option Ty) :
    List SemanticError :=
  match found with
  | some found =>
    if sc.table.assignable expected found then []
    else [n.violates (.argumentMismatch method expected.text found.text)]
  | none => []

/-- The arguments that a last parameter of type `last` takes all together. -/
def checkRow (n : Node) (method : String) (last : Ty) (found : List (Option Ty)) :
    List SemanticError :=
  let each := found.flatMap (sc.checkArgument n method last.element)
  match found with
  | [some t] => if t.isArray then sc.checkArgument n method last (some t) else each
  | _ => each

/-- The arguments of a call to a method of the program fit. -/
def checkArguments (n receiver : Node) (method : String) (arguments : List Node) :
    List SemanticError :=
  let params := (sc.table.params? method).getD []
  let isVarargs := sc.table.isVarargs method
  let fixed := if isVarargs then params.length - 1 else params.length
  let fits := if isVarargs then fixed ≤ arguments.length else arguments.length = fixed
  if ¬ fits then [n.violates (.argumentCount method fixed arguments.length)]
  else
    let types := sc.argumentTypes receiver method arguments
    let single := (params.zip (types.take fixed)).flatMap fun (p, found) =>
      sc.checkArgument n method p.type found
    let row := match isVarargs, params.getLast? with
      | true, some last => sc.checkRow n method last.type (types.drop fixed)
      | _, _ => []
    single ++ row

/-- A call has a receiver that can have the method, and fitting arguments. -/
def checkCall (n receiver : Node) (method : String) (arguments : List Node) :
    List SemanticError :=
  match sc.typeOf? .object receiver with
  | none => []
  | some t =>
    if t.isPrimitiveName then [n.violates (.invalidReceiver method t.text)]
    else if !sc.isLocalReceiver receiver then []
    else if !sc.table.hasMethod method then
      if sc.table.superclass.isNone then [n.violates (.undeclaredMethod method)] else []
    else sc.checkArguments n receiver method arguments

/-- What one node does wrong in a scope. Assigning a field in a static method is not a matter of
names. -/
def checkNamesAt (n : Node) : List SemanticError :=
  match n.kind with
  | .varRef name =>
    if (sc.lookup? name).isNone then [n.violates (.undeclaredVariable name)] else []
  | .assign target _ | .arrayAssign target _ _ =>
    let isStaticField := sc.isStatic && (sc.table.field? target).isSome
    if (sc.lookup? target).isNone && !isStaticField then
      [n.violates (.undeclaredVariable target)]
    else []
  | .call receiver method arguments => sc.checkCall n receiver method arguments
  | _ => []

end Scope

/-- The rules of names that a program breaks. -/
def checkNames (scopeOf : ScopeOf) (root : Node) : List SemanticError :=
  (walk scopeOf root).flatMap fun
    | (some sc, n) => sc.checkNamesAt n
    | (none, _) => []

end MiniJava
