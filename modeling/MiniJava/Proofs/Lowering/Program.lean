import MiniJava.Proofs.Accepted
import MiniJava.Proofs.Lowering.Statement

/-!
# The meaning of lowered programs

The three-address code of a method behaves like the method (`lower_sameBehaviour`). The code of a
body follows its execution; at its end a method without result returns, by an instruction that is
added unless the code ends with one. Any other method must not come to its end.

Nothing is assumed of the program but that it has three-address code.
-/

namespace MiniJava

open Ir

/-! ## The variables of a program are reserved -/

namespace Scope

variable {sc : Scope} {x : String} {b : Binding}

theorem exists_variable_of_lookup? (h : sc.lookup? x = some b) (hb : b.isMethodVariable = true) :
    ∃ v ∈ (sc.table.params? sc.method).getD [] ++ (sc.table.locals? sc.method).getD [],
      v.name = x := by
  unfold lookup? at h
  split at h
  · cases h
    cases hb
  · simp only at h
    split at h
    · rename_i p i hp
      have hname := List.find?_some hp
      have hmem := List.mem_of_find?_eq_some hp
      exact ⟨p, List.mem_append_left _ (List.fst_mem_of_mem_zipIdx hmem), beq_iff_eq.mp hname⟩
    · split at h
      · cases h
        cases hb
      · obtain ⟨v, hv, rfl⟩ := Option.map_eq_some_iff.mp h
        have hname := List.find?_some hv
        exact ⟨v, List.mem_append_right _ (List.mem_of_find?_eq_some hv), beq_iff_eq.mp hname⟩

end Scope

/-- The parameters and local variables of all methods are reserved. -/
theorem mem_reserved_of_method {t : SymbolTable} {v : Variable} {method : String}
    (hv : v ∈ (t.params? method).getD [] ++ (t.locals? method).getD []) :
    v.name ∈ (Supply.ofTable t).reserved := by
  refine List.mem_map_of_mem (List.mem_append_right _ (List.mem_flatMap.mpr ⟨method, ?_, hv⟩))
  rw [← SymbolTable.hasMethod_iff, SymbolTable.hasMethod_eq]
  cases hsig : t.signature? method with
  | none => simp [SymbolTable.params?_eq, SymbolTable.locals?_eq, hsig] at hv
  | some sig => rfl

theorem reserves_ofTable (t : SymbolTable) (head : MethodHead) :
    (Scope.ofMethod t head).Reserves (Supply.ofTable t).reserved := by
  intro x b hx hb
  obtain ⟨v, hv, rfl⟩ := Scope.exists_variable_of_lookup? hx hb
  exact mem_reserved_of_method hv

/-! ## Methods -/

variable {s s' : Supply}

/-- The parameters of a method are those that it declares. -/
theorem mapM_lowerParam_eq_ok {params : List Node} {vs : List Var}
    (h : (params.mapM lowerParam).run s = .ok (vs, s')) :
    vs = (params.filterMap SymbolTable.declared?).map (fun d => ⟨d.name, .ofTy d.type⟩) ∧
      s' = s := by
  induction params generalizing vs with
  | nil =>
    cases h
    exact ⟨rfl, rfl⟩
  | cons p ps ih =>
    rw [List.mapM_cons] at h
    obtain ⟨v, s₁, hv, h⟩ := run_bind_eq_ok.mp h
    obtain ⟨vs', s₂, hvs, h⟩ := run_bind_eq_ok.mp h
    obtain ⟨rfl, rfl⟩ := run_pure_eq_ok.mp h
    unfold lowerParam at hv
    split at hv
    · rename_i name type hkind
      obtain ⟨rfl, rfl⟩ := run_pure_eq_ok.mp hv
      obtain ⟨rfl, rfl⟩ := ih hvs
      have hp : SymbolTable.declared? p = some ⟨name, .ofExpr type⟩ := by
        rw [SymbolTable.declared?, hkind]
      rw [List.filterMap_cons_some hp]
      exact ⟨rfl, rfl⟩
    · exact absurd hv run_throw_ne_ok

/-- The code of a method is that of its body, and a return behind it if one is missing. -/
theorem lowerMethod_eq_ok {scopeOf : MethodHead → Scope} {n : Node} {m : Method}
    (h : (lowerMethod scopeOf n).run s = .ok (m, s')) :
    ∃ head params locals body code, n.kind = .methodDecl head params locals body ∧
      ((scopeOf head).lowerStmts body).run s = .ok (code, s') ∧ m.name = head.name ∧
      m.isStatic = head.isStatic ∧
      m.params = (params.filterMap SymbolTable.declared?).map (fun d => ⟨d.name, .ofTy d.type⟩) ∧
      (m.code = code ++ [.ret none] ∧ IrType.ofTy (.ofExpr head.returnType) = .void ∨
        m.code = code ∧ (IrType.ofTy (.ofExpr head.returnType) = .void → endsInJump code = true)) := by
  unfold lowerMethod at h
  split at h
  · rename_i head params locals body hkind
    obtain ⟨vs, s₁, hvs, h⟩ := run_bind_eq_ok.mp h
    simp only at h
    obtain ⟨code, s₂, hcode, h⟩ := run_bind_eq_ok.mp h
    obtain ⟨rfl, rfl⟩ := run_pure_eq_ok.mp h
    obtain ⟨rfl, rfl⟩ := mapM_lowerParam_eq_ok hvs
    refine ⟨head, params, locals, body, code, hkind, hcode, rfl, rfl, rfl, ?_⟩
    by_cases hvoid : IrType.ofTy (.ofExpr head.returnType) = .void
    · cases hlast : code.getLast? with
      | none => exact .inl ⟨by simp [hvoid], hvoid⟩
      | some i =>
        cases i with
        | ret o => exact .inr ⟨by simp, fun _ => by simp [endsInJump, hlast, Instr.isTerminator]⟩
        | _ => exact .inl ⟨by simp [hvoid], hvoid⟩
    · exact .inr ⟨by simp [hvoid], fun h => absurd h hvoid⟩
  · exact absurd h run_throw_ne_ok

/-- The code of a body, with what stands behind it, behaves like the body if it follows each
execution of it and ends as the method does where the execution goes on. -/
theorem runBody_sameBehaviour {sc : Scope} {w : World Effect Val} {r : List String} {body : List Node}
    {result : Ty} {vars : Vars} {full rest : Code}
    (hreaches : ∀ fuel, Reaches w full r fuel ⟨full, vars, []⟩ rest
      (sc.execAll w fuel body vars []))
    (hend : ∀ fuel vars' t, sc.execAll w fuel body vars [] = .next vars' t → ∀ μ,
      ((erased w).machine full).Leads ⟨rest, μ, t⟩
        (.finished (if IrType.ofTy result = .void then .returned none else .stuck) t)) :
    SameBehaviour (sc.runBody w result body vars) ((erased w).observe full vars) := by
  refine SameBehaviour.of_simulation (machine_language_grows full) ?_ ?_
  · intro fuel o t ho
    have h := hreaches fuel
    unfold Scope.runBody at ho
    cases hflow : sc.execAll w fuel body vars [] with
    | next vars' t' =>
      rw [hflow] at h ho
      obtain ⟨μ, -, hleads⟩ := h
      cases ho
      exact hleads.trans (hend fuel vars' t hflow μ)
    | finished o' t' =>
      rw [hflow] at h ho
      cases ho
      exact h
    | outOfFuel t' =>
      rw [hflow] at ho
      cases ho
  · intro fuel t ht
    have h := hreaches fuel
    unfold Scope.runBody at ht
    cases hflow : sc.execAll w fuel body vars [] with
    | outOfFuel t' =>
      rw [hflow] at h ht
      cases ht
      exact h
    | _ =>
      rw [hflow] at ht
      cases ht

theorem lowerMethod_sameBehaviour {t : SymbolTable} {n : Node} {m : Method}
    (hs : s.reserved = (Supply.ofTable t).reserved)
    (h : (lowerMethod (Scope.ofMethod t) n).run s = .ok (m, s')) (w : World Effect Val)
    (vars : Vars) : SameBehaviour (n.runMethod t w vars) (m.run w vars) := by
  obtain ⟨head, params, locals, body, code, hkind, hcode, -, -, -, hm⟩ := lowerMethod_eq_ok h
  have hr := reserves_ofTable t head
  have hmade := (Scope.ofMethod t head).lowerStmts_makes
    (fun n _ => (Scope.ofMethod t head).lowerStmt_makes hr n) s code s' hs hcode
  have hreaches (rest : Code) (hnodup : (labels (code ++ rest)).Nodup) (fuel : Nat) :=
    (Scope.ofMethod t head).reaches_lowerStmts hr
      (fun n _ => (Scope.ofMethod t head).executes w hr n) hs hcode hnodup (List.suffix_refl _)
      fuel [] (fun _ _ => rfl : Vars.AgreesOn _ vars vars)
  unfold Node.runMethod Method.run
  rw [hkind]
  rcases hm with ⟨hm, hvoid⟩ | ⟨hm, hvoid⟩
  · rw [hm]
    refine runBody_sameBehaviour (hreaches [.ret none] ?_) fun _ _ _ _ _ => ?_
    · rw [labels_append]
      exact (List.append_nil (labels code)).symm ▸ hmade.issues.nodup
    · rw [if_pos hvoid]
      exact .single (Language.step_of_error rfl)
  · rw [hm, ← List.append_nil code]
    refine runBody_sameBehaviour (hreaches [] ?_) fun fuel vars' t' hnext _ => ?_
    · rw [List.append_nil]
      exact hmade.issues.nodup
    · by_cases hresult : IrType.ofTy (.ofExpr head.returnType) = .void
      · exact absurd hnext (Scope.execAll_ne_next (fun n _ => Scope.endsAsCode n) hcode
          (hvoid hresult) fuel vars [] vars' t')
      · rw [if_neg hresult]
        exact .single rfl

/-! ## Programs -/

theorem forall₂_of_mapM {α β : Type} {f : α → Lower β} {P : α → β → Prop} {r : List String}
    (hf : ∀ a s b s', s.reserved = r → (f a).run s = .ok (b, s') → P a b ∧ s'.reserved = r)
    {as : List α} {bs : List β} (hs : s.reserved = r) (h : (as.mapM f).run s = .ok (bs, s')) :
    List.Forall₂ P as bs := by
  induction as generalizing s bs with
  | nil =>
    cases h
    exact .nil
  | cons a as ih =>
    rw [List.mapM_cons] at h
    obtain ⟨b, s₁, hb, h⟩ := run_bind_eq_ok.mp h
    obtain ⟨bs', s₂, hbs, h⟩ := run_bind_eq_ok.mp h
    obtain ⟨rfl, rfl⟩ := run_pure_eq_ok.mp h
    obtain ⟨hP, hs₁⟩ := hf a s b s₁ hs hb
    exact .cons hP (ih hs₁ hbs)

theorem lower_eq_ok {t : SymbolTable} {root : Node} {unit : ClassUnit}
    (h : lower t root = .ok unit) :
    ∃ s', (root.methods.mapM (lowerMethod (Scope.ofMethod t))).run (.ofTable t) =
      .ok (unit.methods, s') := by
  unfold lower lowerWith StateT.run' at h
  cases hrun : (root.methods.mapM (lowerMethod (Scope.ofMethod t))).run (.ofTable t) with
  | error e =>
    unfold StateT.run at hrun
    rw [hrun] at h
    cases h
  | ok p =>
    unfold StateT.run at hrun
    rw [hrun] at h
    cases h
    exact ⟨p.2, rfl⟩

theorem exists_of_forall₂ {α β : Type} {R : α → β → Prop} {as : List α} {bs : List β}
    (h : List.Forall₂ R as bs) {b : β} (hb : b ∈ bs) : ∃ a ∈ as, R a b := by
  induction h with
  | nil => cases hb
  | @cons a b' as bs hR _ ih =>
    rcases List.mem_cons.mp hb with rfl | hb
    · exact ⟨a, List.mem_cons_self, hR⟩
    · obtain ⟨a', ha', hR'⟩ := ih hb
      exact ⟨a', List.mem_cons_of_mem a ha', hR'⟩

/-- All elements of one list have a property if those at the same places of the other have it. -/
theorem forall_mem_iff_of_forall₂ {α β : Type} {P : α → Prop} {Q : β → Prop} {as : List α}
    {bs : List β} (h : List.Forall₂ (fun a b => P a ↔ Q b) as bs) :
    (∀ a ∈ as, P a) ↔ ∀ b ∈ bs, Q b := by
  induction h with
  | nil => exact ⟨fun _ => List.forall_mem_nil Q, fun _ => List.forall_mem_nil P⟩
  | cons hab _ ih => rw [List.forall_mem_cons, List.forall_mem_cons, hab, ih]

/-- The methods of a unit are lowered one after the other from supplies that reserve the variables of
the program. -/
theorem forall₂_lowerMethod {t : SymbolTable} {root : Node} {unit : ClassUnit}
    (h : lower t root = .ok unit) :
    List.Forall₂ (fun n m => ∃ s s', s.reserved = (Supply.ofTable t).reserved ∧
      (lowerMethod (Scope.ofMethod t) n).run s = .ok (m, s')) root.methods unit.methods := by
  obtain ⟨s', hrun⟩ := lower_eq_ok h
  refine forall₂_of_mapM (fun n s m s' hs hm => ⟨⟨s, s', hs, hm⟩, ?_⟩) rfl hrun
  obtain ⟨head, params, locals, body, code, hkind, hcode, -⟩ := lowerMethod_eq_ok hm
  have hmade := (Scope.ofMethod t head).lowerStmts_makes
    (fun n _ => (Scope.ofMethod t head).lowerStmt_makes (reserves_ofTable t head) n)
    s code s' hs hcode
  exact hmade.precedes.reserved.trans hs

/-- **The three-address code of each method behaves like the method**: it has the same effects in
the same order, and ends in the same way or goes on forever as the method does, whatever the answers
to the effects and the first values of the variables are. -/
theorem lower_sameBehaviour {table : SymbolTable} {root : Node} {unit : ClassUnit}
    (h : lower table root = .ok unit) :
    List.Forall₂ (fun n m => n.kind.declaredName? = some m.name ∧
      ∀ w vars, SameBehaviour (n.runMethod table w vars) (m.run w vars))
      root.methods unit.methods := by
  obtain ⟨s', hrun⟩ := lower_eq_ok h
  refine forall₂_of_mapM (fun n s m s' hs hm => ?_) rfl hrun
  obtain ⟨head, params, locals, body, code, hkind, hcode, hname, -⟩ := lowerMethod_eq_ok hm
  have hmade := (Scope.ofMethod table head).lowerStmts_makes
    (fun n _ => (Scope.ofMethod table head).lowerStmt_makes (reserves_ofTable table head) n)
    s code s' hs hcode
  refine ⟨⟨?_, fun w vars => lowerMethod_sameBehaviour hs hm w vars⟩,
    hmade.precedes.reserved.trans hs⟩
  rw [hkind, hname]
  rfl

/-- The code of a loop with two conditions, the second of which is not always computed. -/
theorem lower_sameBehaviour_loop : ∃ root table unit,
    Accepted "class A{int f(int a,boolean b){while(a<9&&b)a=a+1;return a;}}" root table ∧
      lower table root = .ok unit ∧ unit.methods.length = 1 ∧
      List.Forall₂ (fun n m => n.kind.declaredName? = some m.name ∧
        ∀ w vars, SameBehaviour (n.runMethod table w vars) (m.run w vars))
        root.methods unit.methods := by
  obtain ⟨root, table, h, hp⟩ := Accepted.exists_of_any
    "class A{int f(int a,boolean b){while(a<9&&b)a=a+1;return a;}}"
    (fun root table => match lower table root with
      | .ok unit => unit.methods.length = 1
      | .error _ => false)
    (by decide +kernel)
  split at hp
  · rename_i unit hlower
    exact ⟨root, table, unit, h, hlower, of_decide_eq_true hp, lower_sameBehaviour hlower⟩
  · cases hp

end MiniJava
