import MiniJava.Ir.OfTree

/-!
# The type of a call

A call always has a type: where its method is not known, it has the type that is demanded of it
(`Scope.typeOf?_call_ne_none`). So the lowering of a call does not fail for want of a type
(`Scope.lowerCallOf_eq`): it makes a call that returns the type, wherever the call stands
(`Scope.lowerExpr_call`, `Scope.lowerDropped_call`).
-/

namespace MiniJava

open Ir

namespace Scope

variable (sc : Scope) (d : Ty) (i : Nat) (p : Position) (receiver : Node) (method : String)
  (arguments : List Node)

theorem exists_typeOf?_call : ∃ t, sc.typeOf? d ⟨i, p, .call receiver method arguments⟩ = some t :=
  Option.ne_none_iff_exists'.mp (sc.typeOf?_call_ne_none d i p receiver method arguments)

/-- **A call whose type is known is lowered to one that returns this type.** -/
theorem lowerCallOf_eq {type? : Option Ty} (known : type? ≠ none) (target : Lower Value)
    (values : List (Lower Value)) :
    sc.lowerCallOf type? known p receiver method arguments target values =
      sc.lowerCall (.ofTy (type?.getD d)) receiver method arguments target values := by
  cases type? with
  | some t => rfl
  | none => exact absurd rfl known

theorem lowerExpr_call : sc.lowerExpr d ⟨i, p, .call receiver method arguments⟩ = (do
    let t := (sc.typeOf? d ⟨i, p, .call receiver method arguments⟩).getD d
    let (call, code) ← sc.lowerCall (.ofTy t) receiver method arguments
      (sc.lowerExpr .object receiver)
      (sc.lowerEach (sc.argumentDemands receiver method arguments) arguments)
    if call.returnType = .void then throw (.voidValue method p)
    Lower.assignTemp code (.call call)) := by
  rw [lowerExpr, sc.lowerCallOf_eq d]

theorem lowerDropped_call : sc.lowerDropped ⟨i, p, .call receiver method arguments⟩ = do
    let t := (sc.typeOf? .void ⟨i, p, .call receiver method arguments⟩).getD .void
    let (call, code) ← sc.lowerCall (.ofTy t) receiver method arguments
      (sc.lowerExpr .object receiver)
      (sc.lowerEach (sc.argumentDemands receiver method arguments) arguments)
    return code ++ [.call call] := by
  rw [lowerDropped, sc.lowerCallOf_eq .void]

end Scope

end MiniJava
