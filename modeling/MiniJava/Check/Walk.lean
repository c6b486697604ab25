import MiniJava.Check.Violation
import MiniJava.Typing

/-!
# Walking through a program

The checks look at every node in preorder, together with the scope of the last method that was
entered, which is never reset (`walk`). In a class the fields come in front of the methods, so a
field has no scope.
-/

namespace MiniJava

/-- The scope that a method declaration opens. -/
abbrev ScopeOf := MethodHead → Scope

/-- Put beside each node the scope of the last method at or in front of it. -/
def withScopes (scopeOf : ScopeOf) : Option Scope → List Node → List (Option Scope × Node)
  | _, [] => []
  | last, n :: ns =>
    let scope := match n.kind with
      | .methodDecl head _ _ _ => some (scopeOf head)
      | _ => last
    (scope, n) :: withScopes scopeOf scope ns

/-- Every node in preorder with its scope. -/
def walk (scopeOf : ScopeOf) (root : Node) : List (Option Scope × Node) :=
  withScopes scopeOf none root.preorder

/-- A violation at a node. -/
def Node.violates (n : Node) (v : Violation) : SemanticError := ⟨v, n.position⟩

/-- How a message refers to an expression: a name by itself, another by its sort. -/
def Node.describe : Node → String
  | ⟨_, _, .varRef name⟩ => name
  | ⟨_, _, .paren inner⟩ => inner.describe
  | n => n.kind.name
termination_by structural n => n

end MiniJava
