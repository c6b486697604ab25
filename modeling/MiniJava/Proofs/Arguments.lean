import Mathlib.Data.Nat.PSub
import MiniJava.Proofs.Declared
import MiniJava.Proofs.Stages

/-!
# Rows of arguments

Checking a call and lowering it both cut the arguments in two: one for each parameter but the last
of a method with a row of arguments, and the rest for the row. Here both are written down once more
with a subtraction that fails below zero and with cuts that fail behind the end
(`Scope.checkArgumentsInRange?`, `Scope.lowerArgumentsInRange?`), and neither ever fails
(`arguments_in_range`).

For the lowering that is a matter of arithmetic, since it takes the smaller of two numbers. The
check subtracts one from the number of parameters, which is safe because in a symbol table a method
with a row has a last parameter, and that is an array (`SymbolTable.RowsAreArrays`). It does not
matter whether a program is accepted: of several methods with one name the same declaration gives
the parameters and tells whether there is a row.
-/

namespace MiniJava

/-! ## Cutting with care -/

section Cuts

variable {α : Type} {n : Nat} {l : List α}

/-- The first `n` elements, if there are so many. -/
def frontTo? (n : Nat) (l : List α) : Option (List α) :=
  if n ≤ l.length then some (l.take n) else none

/-- The elements behind the first `n`, if there are so many. -/
def restFrom? (n : Nat) (l : List α) : Option (List α) :=
  if n ≤ l.length then some (l.drop n) else none

theorem frontTo?_eq (h : n ≤ l.length) : frontTo? n l = some (l.take n) := if_pos h

theorem restFrom?_eq (h : n ≤ l.length) : restFrom? n l = some (l.drop n) := if_pos h

end Cuts

/-! ## What the symbol table knows of rows -/

namespace SymbolTable

/-- A method with a row of arguments has a last parameter, and that is an array. -/
def RowsAreArrays (t : SymbolTable) : Prop :=
  ∀ method, t.isVarargs method = true → ∃ params last,
    t.params? method = some params ∧ params.getLast? = some last ∧ last.type.isArray = true

/-- In the symbol table of a tree rows are arrays. -/
theorem rowsAreArrays_of_ofTree? {root : Node} {table : SymbolTable}
    (h : ofTree? root = .ok table) : table.RowsAreArrays :=
  fun _ hrow => isArray_of_isVarargs h hrow

/-- A method with a row of arguments has a parameter. -/
theorem RowsAreArrays.one_le_length {t : SymbolTable} (h : t.RowsAreArrays) {method : String}
    (hrow : t.isVarargs method = true) : 1 ≤ ((t.params? method).getD []).length := by
  obtain ⟨params, last, hparams, hlast, -⟩ := h method hrow
  rw [hparams]
  exact List.length_pos_of_mem (List.mem_of_getLast? hlast)

end SymbolTable

/-! ## Checking and lowering with care -/

namespace Scope

open Ir

variable (sc : Scope)

/-- The check of the arguments of a call (`Scope.checkArguments`), if everything is in range. -/
def checkArgumentsInRange? (n receiver : Node) (method : String) (arguments : List Node) :
    Option (List SemanticError) := do
  let params := (sc.table.params? method).getD []
  let isVarargs := sc.table.isVarargs method
  let fixed ← if isVarargs then params.length.psub 1 else some params.length
  let fits := if isVarargs then fixed ≤ arguments.length else arguments.length = fixed
  if ¬ fits then return [n.violates (.argumentCount method fixed arguments.length)]
  let types := sc.argumentTypes receiver method arguments
  let front ← frontTo? fixed types
  let single := (params.zip front).flatMap fun (p, found) =>
    sc.checkArgument n method p.type found
  match isVarargs, params.getLast? with
  | true, some last =>
    let row ← restFrom? fixed types
    return single ++ sc.checkRow n method last.type row
  | _, _ => return single

/-- The lowering of the arguments of a call (`Scope.lowerArguments`), if everything is in range. -/
def lowerArgumentsInRange? (receiver : Node) (method : String) (arguments : List Node)
    (values : List (Lower Value)) : Option (Lower (List Operand × Code)) := do
  let params := (sc.table.params? method).getD []
  let packs := sc.isLocalReceiver receiver && sc.table.isVarargs method
  let fixed := if packs then min (params.length - 1) arguments.length else arguments.length
  let front ← frontTo? fixed values
  if ¬ packs then return Lower.inOrder front
  let rest ← restFrom? fixed arguments
  let row ← restFrom? fixed values
  let isSingleArray := match rest with
    | [a] => ((sc.typeOf? (sc.parameterDemand method fixed) a).map Ty.isArray).getD false
    | _ => false
  let t := (params.getLast?.map fun p => IrType.ofTy p.type).getD .intArray
  return do
    let (operands, code) ← Lower.inOrder front
    if isSingleArray then
      let (last, code') ← Lower.inOrder row
      return (operands ++ last, code ++ code')
    else
      let (array, code') ← Lower.packArray t row
      return (operands ++ [.var array], code ++ code')

theorem length_argumentTypes (receiver : Node) (method : String) (arguments : List Node) :
    (sc.argumentTypes receiver method arguments).length = arguments.length := by
  unfold argumentTypes argumentDemands
  split <;> simp

theorem length_lowerEach (demands : List Ty) (ns : List Node) :
    (sc.lowerEach demands ns).length = ns.length := by
  induction ns generalizing demands with
  | nil => rfl
  | cons n ns ih => exact congrArg (· + 1) (ih demands.tail)

/-- Where rows are arrays, checking the arguments of a call stays in range. -/
theorem checkArgumentsInRange?_eq (h : sc.table.RowsAreArrays) (n receiver : Node)
    (method : String) (arguments : List Node) :
    sc.checkArgumentsInRange? n receiver method arguments =
      some (sc.checkArguments n receiver method arguments) := by
  have hlength := sc.length_argumentTypes receiver method arguments
  unfold checkArgumentsInRange? checkArguments
  cases hrow : sc.table.isVarargs method with
  | false =>
    by_cases hfits : arguments.length = ((sc.table.params? method).getD []).length
    · have hfront := frontTo?_eq (Nat.le_of_eq (hfits.symm.trans hlength.symm))
      simp [hfits, hfront]
    · simp [hfits]
  | true =>
    have hpsub := Nat.psub_eq_sub (h.one_le_length hrow)
    by_cases hfits : ((sc.table.params? method).getD []).length - 1 ≤ arguments.length
    · have hcut := hfits.trans (Nat.le_of_eq hlength.symm)
      simp only [if_true, hpsub, Option.bind_eq_bind, Option.bind_some, hfits, not_true_eq_false,
        if_false, frontTo?_eq hcut, restFrom?_eq hcut]
      cases ((sc.table.params? method).getD []).getLast? <;> simp
    · simp only [if_true, hpsub, Option.bind_eq_bind, Option.bind_some, hfits, not_false_eq_true]
      rfl

/-- Lowering as many values as there are arguments stays in range. -/
theorem lowerArgumentsInRange?_eq (receiver : Node) (method : String) {arguments : List Node}
    {values : List (Lower Value)} (hlength : values.length = arguments.length) :
    sc.lowerArgumentsInRange? receiver method arguments values =
      some (sc.lowerArguments receiver method arguments values) := by
  unfold lowerArgumentsInRange? lowerArguments
  cases hpacks : sc.isLocalReceiver receiver && sc.table.isVarargs method with
  | false =>
    have hfront := frontTo?_eq (Nat.le_of_eq hlength.symm)
    rw [List.take_of_length_le (Nat.le_of_eq hlength)] at hfront
    simp [hfront]
  | true =>
    have hrest := Nat.min_le_right (((sc.table.params? method).getD []).length - 1) arguments.length
    have hcut := hrest.trans (Nat.le_of_eq hlength.symm)
    simp only [if_true, frontTo?_eq hcut, restFrom?_eq hcut, restFrom?_eq hrest]
    rfl

end Scope

/-! ## The result -/

/-- **Arguments are never cut out of range.** Of whatever tree the symbol table is, a method with a
row of arguments has a last parameter that is an array; and every call in a scope of that table is
checked and lowered in range, whether or not its arguments fit. -/
theorem arguments_in_range {root : Node} {table : SymbolTable}
    (h : SymbolTable.ofTree? root = .ok table) :
    table.RowsAreArrays ∧
    ∀ sc : Scope, sc.table = table → ∀ (receiver : Node) (method : String) (arguments : List Node),
      (∀ n, sc.checkArgumentsInRange? n receiver method arguments =
        some (sc.checkArguments n receiver method arguments)) ∧
      ∀ demands,
        sc.lowerArgumentsInRange? receiver method arguments (sc.lowerEach demands arguments) =
          some (sc.lowerArguments receiver method arguments (sc.lowerEach demands arguments)) := by
  have hrows := SymbolTable.rowsAreArrays_of_ofTree? h
  refine ⟨hrows, ?_⟩
  rintro sc rfl receiver method arguments
  exact ⟨fun n => sc.checkArgumentsInRange?_eq hrows n receiver method arguments, fun demands =>
    sc.lowerArgumentsInRange?_eq receiver method (sc.length_lowerEach demands arguments)⟩

/-- The first of two methods `f` has a row and the second has no parameter at all; `g` has a row in
front of another parameter, which is no row for a call. The checks object, and stay in range. -/
theorem arguments_in_range_repeated : ∃ root table,
    loadText
        "class A{int f(int... a){return this.g();}void f(){}int g(int... a,int b){return 0;}}" =
      .ok (root, table) ∧ analyze table root ≠ [] ∧
      table.isVarargs "f" = true ∧ table.isVarargs "g" = false ∧ table.RowsAreArrays ∧
      ∀ head n receiver, (Scope.ofMethod table head).checkArgumentsInRange? n receiver "g" [] =
        some ((Scope.ofMethod table head).checkArguments n receiver "g" []) := by
  obtain ⟨⟨root, table⟩, hload, hany⟩ := exists_eq_ok_of_any
    (x := loadText
      "class A{int f(int... a){return this.g();}void f(){}int g(int... a,int b){return 0;}}")
    (p := fun p => analyze p.2 p.1 ≠ [] ∧
      p.2.isVarargs "f" = true ∧ p.2.isVarargs "g" = false)
    (by decide +kernel)
  obtain ⟨hobjects, hf, hg⟩ := of_decide_eq_true hany
  obtain ⟨hrows, hrange⟩ := arguments_in_range (loaded_of_loadText hload).declared
  exact ⟨root, table, hload, hobjects, hf, hg, hrows, fun head n receiver =>
    (hrange (Scope.ofMethod table head) rfl receiver "g" []).1 n⟩

end MiniJava
