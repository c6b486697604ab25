import MiniJava.Proofs.Lowering.Regular

/-!
# Paths through lowered methods

A method with a result returns on every path by the check of its structure, which looks at the last
statement only. The code for a statement that always returns confines control: a path that enters it
at its front stays inside (`Scope.lowerStmt_confines`). So no path runs off the end of a method
(`runsToReturns_of_lower`).
-/

namespace MiniJava

open Ir

/-- A path from the first instruction never comes to the end of the code: it stops at a return or may
be continued, by a jump wherever an instruction names a label. -/
def Ir.Method.RunsToReturns (m : Method) : Prop :=
  ∀ place, controlFlow.Leads m.code m.code place → ∃ i rest, place = i :: rest ∧
    ((∃ o, i = .ret o) ∨ ∃ next, controlFlow.Steps m.code place next) ∧
    ∀ l, i.target? = some l → ∃ rest', controlFlow.Steps m.code place (.label l :: rest')

namespace Scope

variable (sc : Scope)

/-! ## Statements that always return -/

theorem lowerStmts_confines {ns : List Node}
    (h : ∀ n ∈ ns, n.alwaysReturns = true →
      Yields (sc.lowerStmt n) controlFlow.Confines fun _ => True)
    (hns : lastReturns ns = true) :
    Yields (sc.lowerStmts ns) controlFlow.Confines fun _ => True := by
  induction ns with
  | nil => cases hns
  | cons n ns ih =>
    cases ns with
    | nil =>
      refine (h n List.mem_cons_self hns).bind fun p hp => .seq fun q => .pure ?_
      exact hp.append q
    | cons m ms =>
      have hlast := ih (fun c hc => h c (List.mem_cons_of_mem n hc)) hns
      refine (sc.lowerStmt_regular n).bind fun p hp => hlast.bind fun q hq => .pure ?_
      exact ControlFlow.Closed.confines_append hp.closed hq

/-- **The code for a statement that always returns confines control.** -/
theorem lowerStmt_confines (n : Node) (hn : n.alwaysReturns = true) :
    Yields (sc.lowerStmt n) controlFlow.Confines fun _ => True := by
  induction n using Node.induction with
  | step n ih =>
    obtain ⟨i, p, k⟩ := n
    cases k with
    | returning value =>
      cases value with
      | none => exact .pure (ControlFlow.confines_single rfl rfl)
      | some value =>
        refine (sc.lowerExpr_regular value _).bind fun v hv => .pure ?_
        exact ControlFlow.Closed.confines_append hv.closed (ControlFlow.confines_single rfl rfl)
    | ifElse c thenBranch elseBranch =>
      cases elseBranch with
      | none => cases hn
      | some elseBranch =>
        obtain ⟨hthen, helse⟩ : thenBranch.alwaysReturns = true ∧ elseBranch.alwaysReturns = true := by
          simpa [Node.alwaysReturns] using hn
        have hthen := ih thenBranch (by simp [Node.children, Kind.children]) hthen
        have helse := ih elseBranch (by simp [Node.children, Kind.children]) helse
        refine .seq fun k => (sc.lowerExpr_regular c _).bind fun v hv => ?_
        refine helse.bind fun elseCode he => hthen.bind fun thenCode ht => .pure ?_
        simp only [List.append_assoc, List.cons_append, List.nil_append]
        rw [closeWith_cons_append _ _ _ _ rfl]
        have hyes := ht.append [Instr.label ("if_end_" ++ toString k)]
        have hfork := ControlFlow.confines_fork (F := controlFlow)
          (i := .branch v.operand ("if_then_" ++ toString k)) rfl (j := .label _) rfl rfl he hyes
        refine ControlFlow.Closed.confines_append hv.closed ?_
        split
        · exact hfork []
        · exact hfork [.goto _]
    | block statements => exact sc.lowerStmts_confines (fun c hc hc' => ih c hc hc') hn
    | _ => cases hn

end Scope

/-! ## Methods -/

variable {source : String} {root : Node} {table : SymbolTable} {unit : ClassUnit} {m : Method}

/-- A method with a result ends with a statement that always returns. -/
theorem Scope.Approves.lastReturns {sc : Scope} {n : Node} {head : MethodHead}
    {params locals body : List Node} (h : sc.Approves n)
    (hkind : n.kind = .methodDecl head params locals body) (hresult : head.returnType ≠ .void) :
    lastReturns body = true := by
  have hstructure := h.structuredHere
  simp only [checkStructureAt, hkind, List.append_eq_nil_iff] at hstructure
  simpa [hresult] using hstructure.2

/-- The code of a method confines control. -/
theorem confines_of_lowerMethod (h : Accepted source root table) {n : Node} (hn : n ∈ root.methods)
    {s s' : Supply} (hm : (lowerMethod (Scope.ofMethod table) n).run s = .ok (m, s')) :
    controlFlow.Confines m.code := by
  obtain ⟨head, params, locals, body, code, hkind, hcode, hresult, hregular, -, hbody⟩ :=
    lowerMethod_shape hm
  rcases hbody with ⟨-, front, o, hm⟩ | ⟨hvalue, hm⟩
  · have hclosed : targets front ⊆ labels front := by
      have hclosed := hregular.closed
      rw [hm] at hclosed
      simpa [Instr.target?, Instr.label?] using hclosed
    rw [hm]
    exact ControlFlow.Closed.confines_append hclosed (ControlFlow.confines_single rfl rfl)
  · have hbody : lastReturns body = true := by
      have happroves := h.approves_of_mem_preorder (Node.mem_preorder_of_mem_methods hn).1 hkind
      refine happroves.lastReturns hkind fun hvoid => hvalue ?_
      rw [hresult, hvoid]
      rfl
    rw [hm]
    exact (Scope.lowerStmts_confines _ (fun c _ => Scope.lowerStmt_confines _ c) hbody).of_run hcode

/-- **No path runs off the end of a method of an accepted program.** -/
theorem runsToReturns_of_lower (h : Accepted source root table) (hlower : lower table root = .ok unit)
    (hm : m ∈ unit.methods) : m.RunsToReturns := by
  obtain ⟨n, hn, s, s', hs, hrun⟩ := exists_of_forall₂ (forall₂_lowerMethod hlower) hm
  have hnodup : (controlFlow.labels m.code).Nodup := nodup_labels_of_lowerMethod hs hrun
  have hconfines := confines_of_lowerMethod h hn hrun
  intro place hplace
  have hplace' : ∃ r, r ≠ [] ∧ r <:+ m.code ∧ place = r ++ [] := by
    refine hconfines m.code [] hnodup ?_ place ?_
    · rw [List.append_nil]
    · rwa [List.append_nil]
  obtain ⟨r, hne, hr, rfl⟩ := hplace'
  rw [List.append_nil]
  obtain ⟨i, rest, rfl⟩ := List.exists_cons_of_ne_nil hne
  have hjump : ∀ l, i.target? = some l → ∃ rest',
      controlFlow.Steps m.code (i :: rest) (.label l :: rest') := by
    intro l hl
    have hmem : l ∈ targets m.code := List.mem_filterMap.mpr ⟨i, hr.subset List.mem_cons_self, hl⟩
    obtain ⟨j, rest', hj, hplace⟩ :=
      ControlFlow.exists_place (F := controlFlow) ((regular_of_lower hlower hm).closed hmem)
    cases j <;> cases hj
    exact ⟨rest', .jump hl rfl hplace⟩
  refine ⟨i, rest, rfl, ?_, hjump⟩
  cases i with
  | ret o => exact .inl ⟨o, rfl⟩
  | goto l => exact .inr ((hjump l rfl).imp' _ fun _ h => h)
  | _ => exact .inr ⟨rest, .fall rfl⟩

/-- The code of a loop, behind which two cases return. -/
theorem runsToReturns_of_lower_cases : ∃ root table unit m,
    Accepted "class A{int f(int a,boolean b){while(b)a=1;if(a<9)return a;else{if(b)return 1;return 2;}}}"
      root table ∧ lower table root = .ok unit ∧ m ∈ unit.methods ∧ m.RunsToReturns := by
  obtain ⟨root, table, h, hp⟩ := Accepted.exists_of_any
    "class A{int f(int a,boolean b){while(b)a=1;if(a<9)return a;else{if(b)return 1;return 2;}}}"
    (fun root table => match lower table root with
      | .ok unit => !unit.methods.isEmpty
      | .error _ => false)
    (by decide +kernel)
  split at hp
  · rename_i unit hlower
    cases hmethods : unit.methods with
    | nil => simp [hmethods] at hp
    | cons m ms =>
      have hm : m ∈ unit.methods := by simp [hmethods]
      exact ⟨root, table, unit, m, h, hlower, hm, runsToReturns_of_lower h hlower hm⟩
  · cases hp

end MiniJava
