import MiniJava.Proofs.Emission.Encoding
import MiniJava.Proofs.Emission.Success
import MiniJava.Proofs.Lowering.Actions
import MiniJava.Proofs.Lowering.Paths

/-!
# Returns and the types of methods

A method with a result returns a value that fits it, and any other returns nothing: the returns of a
method in three-address code agree with its type (`Ir.Method.ReturnsAgree`), and so do the
instructions for them with the descriptor (`Jvm.EmittedMethod.ReturnsAgree`).

The type of a method is that of its declaration, and the checks compare what it returns with the
symbol table. These differ in `main`, whose result is `void` in the table whatever is declared. And
the checks let a method return a variable of type `void`. Apart from that the returns of an accepted
program agree (`returnsAgree_iff_of_lower`); there are programs where they do not
(`not_returnsAgree_main`).
-/

namespace MiniJava

open Ir

/-! ## Agreement -/

/-- The method returns a value exactly if it has a result, which the value fits. -/
def Ir.Method.ReturnsAgree (m : Method) : Prop :=
  ∀ o, .ret o ∈ m.code → (o.isSome = true ↔ m.returnType ≠ .void) ∧
    ∀ v, o = some v → m.returnType.Fits v.type

/-- The method is not `main` with another result than `void`, and returns no value of type
`void`. -/
def Node.ReturnsAsDeclared (table : SymbolTable) (n : Node) : Prop :=
  match n.kind with
  | .methodDecl head _ _ _ =>
    (head.name = "main" → Ty.ofExpr head.returnType = .void) ∧
      ∀ c ∈ n.preorder, ∀ value, c.kind = .returning (some value) →
        (Scope.ofMethod table head).typeOf? (Scope.ofMethod table head).resultDemand value ≠
          some .void
  | _ => True

namespace Jvm

/-- The instruction that returns a result of this type. -/
def JType.returning : JType → Instr
  | void => .ret
  | int | boolean => .retValue .int
  | array _ | object _ => .retValue .ref

/-- The instruction ends a method. -/
def Instr.isReturn : Instr → Bool
  | ret | retValue _ => true
  | _ => false

/-- The method returns only by the instruction for the result in its descriptor. -/
def EmittedMethod.ReturnsAgree (e : EmittedMethod) : Prop :=
  ∀ i ∈ e.code, i.isReturn = true → i = e.type.result.returning

end Jvm

/-! ## The checks -/

namespace SymbolTable

variable {t : SymbolTable} {target value : Ty}

/-- A place for `void` takes nothing else, and nothing else takes `void`. -/
theorem eq_void_iff_of_assignable (h : t.assignable target value = true) :
    target = .void ↔ value = .void := by
  have hprimitive {target value : Ty} (h : t.assignable target value = true)
      (hvoid : target = .void ∨ value = .void) : target = value := by
    simp only [assignable, Bool.or_eq_true, decide_eq_true_eq] at h
    refine h.resolve_right fun htrusts => ?_
    unfold trusts at htrusts
    have hname : (target.isPrimitiveName || value.isPrimitiveName) = true := by
      rcases hvoid with rfl | rfl
      · rfl
      · exact Bool.or_true _
    simp [hname] at htrusts
  constructor
  · rintro rfl
    exact (hprimitive h (.inl rfl)).symm
  · rintro rfl
    exact hprimitive h (.inr rfl)

end SymbolTable

/-- What a method returns is assigned to its result. -/
theorem Scope.assignable_of_returning {sc : Scope} {i : Nat} {p : Position} {value : Option Node}
    {expected found : Ty} (hcheck : sc.checkTypesAt ⟨i, p, .returning value⟩ = [])
    (hexpected : sc.table.returnType? sc.method = some expected)
    (hfound : value.elim (some .void) (sc.typeOf? sc.resultDemand) = some found) :
    sc.table.assignable expected found = true := by
  simp only [checkTypesAt, hexpected] at hcheck
  cases value with
  | none =>
    cases hfound
    simpa using hcheck
  | some value =>
    simp only [Option.elim_some] at hfound
    simpa [hfound] using hcheck

theorem exists_returning_of_lastReturns {ns : List Node}
    (h : ∀ n ∈ ns, n.alwaysReturns = true → ∃ c ∈ n.actions, c.label = .returning)
    (hns : lastReturns ns = true) : ∃ c ∈ ns.flatMap Node.actions, c.label = .returning := by
  induction ns with
  | nil => cases hns
  | cons n ns ih =>
    obtain ⟨hn, hrest⟩ := List.forall_mem_cons.mp h
    cases ns with
    | nil =>
      rw [List.flatMap_singleton]
      exact hn hns
    | cons m ms =>
      obtain ⟨c, hc, hlabel⟩ := ih hrest hns
      exact ⟨c, List.mem_append_right _ hc, hlabel⟩

/-- A statement that always returns has a return. -/
theorem Node.exists_returning {n : Node} (h : n.alwaysReturns = true) :
    ∃ c ∈ n.actions, c.label = .returning := by
  induction n using Node.induction with
  | step n ih =>
    have hactions := n.actions_eq
    obtain ⟨i, p, k⟩ := n
    cases k with
    | returning value => exact ⟨⟨i, p, .returning value⟩, by simp, rfl⟩
    | ifElse c thenBranch elseBranch =>
      cases elseBranch with
      | none => cases h
      | some elseBranch =>
        obtain ⟨c, hc, hlabel⟩ := ih thenBranch mem_second
          ((Bool.and_eq_true _ _).mp h).1
        exact ⟨c, by simp [hc], hlabel⟩
    | block statements =>
      rw [hactions rfl]
      exact exists_returning_of_lastReturns ih h
    | _ => cases h

/-! ## Three-address code -/

variable {source : String} {root : Node} {table : SymbolTable} {unit : ClassUnit}

theorem mem_actions_ret {code : Code} {o : Option Operand} :
    .ret o ∈ actions code ↔ Instr.ret o ∈ code := by
  unfold actions
  rw [List.mem_filterMap]
  constructor
  · rintro ⟨i, hi, haction⟩
    cases i with
    | assign dest value => cases value <;> simp [Instr.action?] at haction
    | call c => simp [Instr.action?] at haction
    | ret o' =>
      cases haction
      exact hi
    | _ => cases haction
  · exact fun h => ⟨_, h, rfl⟩

/-- In a method that returns no value of type `void`, what is returned has the type that the table
tells. -/
theorem returned_fits {sc : Scope} {result : Ty} {c : Node} {a : Action}
    (hresult : sc.table.returnType? sc.method = some result) (hcheck : sc.checkTypesAt c = [])
    (hacts : sc.Acts c a) {o : Option Operand} (ha : a = .ret o)
    (hvalue : ∀ value, c.kind = .returning (some value) →
      sc.typeOf? sc.resultDemand value ≠ some .void) :
    (o.isSome = true ↔ IrType.ofTy result ≠ .void) ∧
      ∀ v, o = some v → (IrType.ofTy result).Fits v.type := by
  cases hacts with
  | call => cases ha
  | ret =>
    cases ha
    have hassign := Scope.assignable_of_returning hcheck hresult rfl
    obtain rfl := (SymbolTable.eq_void_iff_of_assignable hassign).mpr rfl
    exact ⟨by simp [IrType.ofTy_eq_void], nofun⟩
  | @retValue _ _ value o t ht ho =>
    cases ha
    have hassign := Scope.assignable_of_returning hcheck hresult ht
    have hne : t ≠ .void := fun hvoid => hvalue value rfl (hvoid ▸ ht)
    have hresult : result ≠ .void := fun hvoid =>
      hne ((SymbolTable.eq_void_iff_of_assignable hassign).mp hvoid)
    refine ⟨by simp [IrType.ofTy_eq_void, hresult], ?_⟩
    rintro v ⟨⟩
    rw [ho]
    exact fits_of_assignable hassign

/-- No value of type `void` is returned where the returns agree with the type of the method. -/
theorem returned_ne_void {t : IrType} {o : Option Operand}
    (h : (o.isSome = true ↔ t ≠ .void) ∧ ∀ v, o = some v → t.Fits v.type) {v : Operand}
    (hv : o = some v) : v.type ≠ .void := by
  intro hvoid
  rcases h.2 v hv with heq | ⟨-, href, -⟩
  · exact h.1.mp (hv ▸ rfl) (heq.trans hvoid)
  · rw [hvoid] at href
    cases href

/-- A return in a method whose result is `void` in the table agrees with no other result. -/
theorem not_agrees_of_void {sc : Scope} {c : Node} {o : Option Operand} {t : IrType}
    (hresult : sc.table.returnType? sc.method = some .void) (hcheck : sc.checkTypesAt c = [])
    (hacts : sc.Acts c (.ret o)) (ht : t ≠ .void)
    (hagree : (o.isSome = true ↔ t ≠ .void) ∧ ∀ v, o = some v → t.Fits v.type) : False := by
  cases hacts with
  | ret => simp [ht] at hagree
  | @retValue _ _ value o u hu ho =>
    have hassign := Scope.assignable_of_returning hcheck hresult hu
    obtain rfl := (SymbolTable.eq_void_iff_of_assignable hassign).mp rfl
    exact returned_ne_void hagree rfl ho

/-- **The returns of a method agree with its type exactly if it is not `main` with another result
than `void` and returns no value of type `void`.** -/
theorem returnsAgree_iff_of_lowerMethod (h : Accepted source root table) {n : Node}
    (hn : n ∈ root.methods) {m : Method} {s s' : Supply}
    (hm : (lowerMethod (Scope.ofMethod table) n).run s = .ok (m, s')) :
    m.ReturnsAgree ↔ n.ReturnsAsDeclared table := by
  obtain ⟨head, params, locals, body, hkind, happroves⟩ := h.approves hn
  obtain ⟨as, hacts, has⟩ := lowerMethod_acts h.isIdentifier_className
    (fun _ => h.isArray_of_isVarargs) hkind happroves hm
  obtain ⟨head', params', locals', body', code, hkind', -, hresult, -⟩ := lowerMethod_shape hm
  cases hkind.symm.trans hkind'
  have htable := h.returnType?_eq hn hkind
  have hcheck {c : Node} (hc : c ∈ n.actions) :
      (Scope.ofMethod table head).checkTypesAt c = [] :=
    happroves.types c (Node.mem_actions.mp hc).1
  have hfound {c : Node} (hc : c ∈ n.actions) (hlabel : c.label = .returning) :
      ∃ o, .ret o ∈ m.code ∧ (Scope.ofMethod table head).Acts c (.ret o) := by
    obtain ⟨a, ha, hact⟩ := exists_of_forall₂ hacts.flip hc
    have hmem : a ∈ actions m.code := by
      rcases has with has | ⟨has, -⟩ <;> simp [has, ha]
    cases hact with
    | call => cases hlabel
    | ret => exact ⟨none, mem_actions_ret.mp hmem, .ret⟩
    | retValue ht ho => exact ⟨_, mem_actions_ret.mp hmem, .retValue ht ho⟩
  unfold Method.ReturnsAgree Node.ReturnsAsDeclared
  rw [hkind, hresult]
  constructor
  · intro hagree
    refine ⟨fun hmain => by_contra fun hdeclared => ?_, fun c hc value hvalue hvoid => ?_⟩
    · have hlast : lastReturns body = true := happroves.lastReturns hkind fun hvoid =>
        hdeclared (by rw [hvoid]; rfl)
      obtain ⟨c, hc, hlabel⟩ :=
        exists_returning_of_lastReturns (fun c _ => c.exists_returning) hlast
      rw [← Node.actions_methodDecl hkind happroves.wellFormed] at hc
      obtain ⟨o, ho, hact⟩ := hfound hc hlabel
      refine not_agrees_of_void ?_ (hcheck hc) hact (fun hvoid => hdeclared ?_) (hagree o ho)
      · exact htable.trans (by rw [if_pos hmain])
      · exact IrType.ofTy_eq_void.mp hvoid
    · have hlabel : c.label = .returning := by rw [Node.label, hvalue]; rfl
      have haction : c ∈ n.actions := Node.mem_actions.mpr ⟨hc, by rw [hlabel]; rfl⟩
      obtain ⟨o, ho, hact⟩ := hfound haction hlabel
      cases hact with
      | ret => cases hvalue
      | @retValue _ _ value' o t ht hotype =>
        cases hvalue
        obtain rfl := Option.some.inj (hvoid.symm.trans ht)
        exact returned_ne_void (hagree _ ho) rfl hotype
  · rintro ⟨hmain, hvalues⟩ o ho
    have hdeclared : table.returnType? head.name = some (.ofExpr head.returnType) := by
      rw [htable]
      split
      · rw [hmain ‹_›]
      · rfl
    have hmem := mem_actions_ret.mpr ho
    have hor : .ret o ∈ as ∨ o = none ∧ IrType.ofTy (.ofExpr head.returnType) = .void := by
      rcases has with has | ⟨has, hvoid⟩
      · exact .inl (has ▸ hmem)
      · rw [has, List.mem_append, List.mem_singleton] at hmem
        exact hmem.imp id fun h => ⟨by cases h; rfl, hvoid⟩
    rcases hor with hret | ⟨rfl, hvoid⟩
    · obtain ⟨c, hc, hact⟩ := exists_of_forall₂ hacts hret
      exact returned_fits hdeclared (hcheck hc) hact rfl fun value hvalue =>
        hvalues c (Node.mem_actions.mp hc).1 value hvalue
    · exact ⟨by simp [hvoid], by simp⟩

/-! ## Instructions -/

namespace Jvm

theorem returning_of_fits (cs : ClassNames) {t u : IrType} (h : t.Fits u) (ht : t ≠ .void) :
    (cs.jtype t).returning = .retValue (.ofType u) := by
  rcases h with rfl | ⟨href, href', -⟩
  · cases t with
    | void => exact absurd rfl ht
    | _ => rfl
  · cases t <;> cases href <;> simp [ClassNames.jtype, JType.returning, Family.ofType, href']

namespace Frame

variable {fr : Frame} {n : Nat} {j : Instr}

theorem isReturn_of_mem_computing {r : Rhs} (hj : j ∈ fr.computing n r) : j.isReturn = false := by
  have h : (fr.computing n r).all (!·.isReturn) = true := by
    cases r with
    | binary op left right => cases op <;> rfl
    | _ => rfl
  simpa using List.all_eq_true.mp h j hj

/-- Only returns are made into instructions that end a method. -/
theorem eq_ret_of_mem_block {i : Ir.Instr} (hj : j ∈ fr.block n i) (hreturn : j.isReturn = true) :
    i = .ret none ∧ j = .ret ∨ ∃ v, i = .ret (some v) ∧ j = .retValue (.ofType v.type) := by
  have hstraight (h : (fr.finishing n i).all (!·.isReturn) = true)
      (hj : j ∈ fr.finishing n i) : False := by
    simpa [hreturn] using List.all_eq_true.mp h j hj
  rcases List.mem_append.mp hj with hj | hj
  · obtain ⟨o, -, rfl⟩ := List.mem_map.mp hj
    cases o <;> cases hreturn
  · cases i with
    | ret value =>
      cases value with
      | none => exact .inl ⟨rfl, List.mem_singleton.mp hj⟩
      | some v => exact .inr ⟨v, rfl, List.mem_singleton.mp hj⟩
    | assign dest value =>
      rcases List.mem_append.mp hj with hj | hj
      · simp [isReturn_of_mem_computing hj] at hreturn
      · cases List.mem_singleton.mp hj
        cases hreturn
    | call c =>
      refine (hstraight ?_ hj).elim
      rw [finishing]
      split <;> rfl
    | _ => exact (hstraight rfl hj).elim

end Frame

/-- Where the returns of a method agree with its type, the instructions for them agree with its
descriptor. -/
theorem returnsAgree_emitted {m : Method} (h : m.ReturnsAgree) (classes : ClassNames) :
    (emitted classes m).ReturnsAgree := by
  intro j hj hreturn
  obtain ⟨i, hi, n, hj⟩ := Frame.exists_of_mem_blocks hj
  rcases Frame.eq_ret_of_mem_block hj hreturn with ⟨rfl, rfl⟩ | ⟨v, rfl, rfl⟩
  · have hvoid : m.returnType = .void := by simpa using (h none hi).1
    change Instr.ret = (classes.jtype m.returnType).returning
    rw [hvoid]
    rfl
  · obtain ⟨hsome, hfits⟩ := h (some v) hi
    exact (returning_of_fits classes (hfits v rfl) (hsome.mp rfl)).symm

end Jvm

/-! ## Programs -/

/-- **Which returns of an accepted program agree with the types of their methods**: those of all
methods but a `main` with another result than `void`, and methods that return a value of type
`void`. Then the instructions for them agree with the descriptors of the methods. -/
theorem returnsAgree_iff_of_lower (h : Accepted source root table)
    (hlower : lower table root = .ok unit) :
    List.Forall₂ (fun n m => (m.ReturnsAgree ↔ n.ReturnsAsDeclared table) ∧
      (n.ReturnsAsDeclared table → ∀ classes limit e, Jvm.emitMethod classes limit m = .ok e →
        e.ReturnsAgree)) root.methods unit.methods := by
  have hmethods := (List.forall₂_and_left _ _).mpr ⟨fun n hn => hn, forall₂_lowerMethod hlower⟩
  refine hmethods.imp fun n m ⟨hn, s, s', _, hrun⟩ => ?_
  have hiff := returnsAgree_iff_of_lowerMethod h hn hrun
  refine ⟨hiff, fun hvalues classes limit e he => ?_⟩
  obtain ⟨-, -, rfl⟩ := Jvm.emitMethod_eq_ok.mp he
  exact Jvm.returnsAgree_emitted (hiff.mpr hvalues) classes

/-- Methods that return an integer, an array and nothing. -/
theorem returnsAgree_iff_of_lower_results : ∃ root table unit,
    Accepted "class A{int f(int a){return a;}int[] g(int... a){if(1<2)return a;else{return [1];}}void h(){}}"
      root table ∧ lower table root = .ok unit ∧ unit.methods.length = 3 ∧
      List.Forall₂ (fun n m => (m.ReturnsAgree ↔ n.ReturnsAsDeclared table) ∧
        (n.ReturnsAsDeclared table → ∀ classes limit e, Jvm.emitMethod classes limit m = .ok e →
          e.ReturnsAgree)) root.methods unit.methods := by
  obtain ⟨root, table, h, hp⟩ := Accepted.exists_of_any
    "class A{int f(int a){return a;}int[] g(int... a){if(1<2)return a;else{return [1];}}void h(){}}"
    (fun root table => match lower table root with
      | .ok unit => unit.methods.length = 3
      | .error _ => false)
    (by decide +kernel)
  split at hp
  · rename_i unit hlower
    exact ⟨root, table, unit, h, hlower, of_decide_eq_true hp, returnsAgree_iff_of_lower h hlower⟩
  · cases hp

/-- The declared result of `main` counts for its type, but not for what it returns. -/
theorem not_returnsAgree_main : ∃ root table unit m,
    Accepted "class A{static int main(String[] a){return;}}" root table ∧
      lower table root = .ok unit ∧ m ∈ unit.methods ∧ ¬m.ReturnsAgree := by
  obtain ⟨root, table, h, hp⟩ := Accepted.exists_of_any
    "class A{static int main(String[] a){return;}}"
    (fun root table => match lower table root with
      | .ok unit => unit.methods.any fun m => m.returnType = .int32 && m.code.contains (.ret none)
      | .error _ => false)
    (by decide +kernel)
  split at hp
  · rename_i unit hlower
    obtain ⟨m, hm, hp⟩ := List.any_eq_true.mp hp
    obtain ⟨hresult, hret⟩ := (Bool.and_eq_true _ _).mp hp
    refine ⟨root, table, unit, m, h, hlower, hm, fun hagree => ?_⟩
    have hnone := (hagree none (List.contains_iff_mem.mp hret)).1
    rw [of_decide_eq_true hresult] at hnone
    exact absurd (hnone.mpr nofun) nofun
  · cases hp

end MiniJava
