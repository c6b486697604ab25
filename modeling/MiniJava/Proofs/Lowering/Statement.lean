import MiniJava.Proofs.Lowering.Expression
import MiniJava.Proofs.Semantics.Frame

/-!
# The meaning of lowered statements

The code for a statement follows its execution: where the execution goes on, the machine comes to
the end of the code, with the variables of the program as they are then; where it ends, the machine
ends; and where it runs out of fuel, the machine is still running after as many steps as there was
fuel (`Reaches`). A loop is entered by a jump, so each round of it takes a step.

The code for the first case of a conditional is closed by a jump only if it does not end with one.
Then no execution goes on behind it (`Scope.exec_ne_next`).
-/

namespace MiniJava

open Ir

/-! ## Following a flow -/

theorem Act.goOn_bind {β γ : Type} (x : Act Effect Val β) (f : β → Act Effect Val γ)
    (h : List Effect) (k : γ → List Effect → Flow) :
    (x >>= f).goOn h k = x.goOn h fun b h' => (f b).goOn h' k := by
  unfold goOn
  rw [run_bind]
  cases x.run h with
  | mk r h' => cases r <;> rfl

section Reaches

variable {w : World Effect Val} {code : Code} {r : List String} {fuel k : Nat} {vars μ : Vars}
  {t : List Effect} {f : Flow} {p rest mid : Code}

/-- The state follows a flow: where it goes on, the machine comes to the rest of the code. -/
def Reaches (w : World Effect Val) (code : Code) (r : List String) (fuel : Nat)
    (st : Running Instr Vars Effect) (rest : Code) : Flow → Prop
  | .next vars t => ∃ μ, Vars.AgreesOn r vars μ ∧
      ((erased w).machine code).Leads st (.running ⟨rest, μ, t⟩)
  | .finished o t => ((erased w).machine code).Leads st (.finished o t)
  | .outOfFuel t => ((erased w).machine code).Lasts st fuel t

namespace Reaches

variable {st st' : Running Instr Vars Effect}

theorem of_leads (h : Reaches w code r fuel st' rest f)
    (hleads : ((erased w).machine code).Leads st (.running st')) :
    Reaches w code r fuel st rest f := by
  cases f with
  | next vars t =>
    obtain ⟨μ, hμ, hrun⟩ := h
    exact ⟨μ, hμ, hleads.trans hrun⟩
  | finished o t => exact hleads.trans h
  | outOfFuel t => exact .of_leads hleads h

/-- The machine goes on from where it came to. -/
theorem leads (h : Reaches w code r fuel st mid f)
    (hleads : ∀ μ t, Passes Ir.Effect.erase w code mid rest μ t) :
    Reaches w code r fuel st rest f := by
  cases f with
  | next vars t =>
    obtain ⟨μ, hμ, hrun⟩ := h
    exact ⟨μ, hμ, hrun.trans (hleads μ t)⟩
  | finished o t => exact h
  | outOfFuel t => exact h

/-- Where the flow does not go on, it does not matter what stands behind it. -/
theorem of_ne_next (h : Reaches w code r fuel st mid f) (hf : ∀ vars t, f ≠ .next vars t) :
    Reaches w code r fuel st rest f := by
  cases f with
  | next vars t => exact absurd rfl (hf vars t)
  | finished o t => exact h
  | outOfFuel t => exact h

theorem mono (h : Reaches w code r fuel st rest f) (hk : k ≤ fuel) :
    Reaches w code r k st rest f := by
  cases f with
  | next vars t => exact h
  | finished o t => exact h
  | outOfFuel t => exact .mono h hk

/-- Another step in front. -/
theorem cons (h : Reaches w code r fuel st' rest f)
    (hstep : ((erased w).machine code).step st = .running st') :
    Reaches w code r (fuel + 1) st rest f := by
  cases f with
  | next vars t =>
    obtain ⟨μ, hμ, hrun⟩ := h
    exact ⟨μ, hμ, .cons hstep hrun⟩
  | finished o t => exact .cons hstep h
  | outOfFuel t => exact .cons hstep h

protected theorem andThen {g : Vars → List Effect → Flow} (h : Reaches w code r fuel st mid f)
    (hg : ∀ vars μ t, Vars.AgreesOn r vars μ →
      Reaches w code r fuel ⟨mid, μ, t⟩ rest (g vars t)) :
    Reaches w code r fuel st rest (f.andThen g) := by
  cases f with
  | next vars t =>
    obtain ⟨μ, hμ, hrun⟩ := h
    exact (hg vars μ t hμ).of_leads hrun
  | finished o t => exact h
  | outOfFuel t => exact h

/-- What is computed, and then what follows the value. -/
protected theorem goOn {β : Type} {x : Act Effect Val β} {K : β → Vars → Prop}
    {g : β → List Effect → Flow} (hx : (erased w).Computes code p μ x K)
    (hmid : p ++ mid <:+ code)
    (hg : ∀ b μ' t', K b μ' → Reaches w code r fuel ⟨mid, μ', t'⟩ rest (g b t')) :
    Reaches w code r fuel ⟨p ++ mid, μ, t⟩ rest (x.goOn t g) := by
  unfold Act.goOn
  split <;> rename_i hrun
  · obtain ⟨μ', hμ', hleads⟩ := hx.of_run_ok hmid hrun
    exact (hg _ μ' _ hμ').of_leads hleads
  · exact hx.of_run_error hmid hrun

/-- Variables are computed and then the rest goes on with them. -/
theorem goOn_next {x : Act Effect Val Vars}
    (hx : (erased w).Computes code p μ x fun vars' μ' => Vars.AgreesOn r vars' μ')
    (hrest : p ++ rest <:+ code) :
    Reaches w code r fuel ⟨p ++ rest, μ, t⟩ rest (x.goOn t .next) :=
  .goOn hx hrest fun _ μ' _ hμ' => ⟨μ', hμ', .refl _ _⟩

/-- Code for two cases. The one for the second case may be all that stands behind the first one. -/
theorem branch {condition : Operand} {v : Val} {target : String} {yes no : Code}
    {f g : List Effect → Flow} (hnodup : (labels code).Nodup)
    (hv : condition.value w.this μ = v) (hyes : .label target :: yes <:+ code)
    (hf : Reaches w code r fuel ⟨yes, μ, t⟩ rest (f t))
    (hg : Reaches w code r fuel ⟨no, μ, t⟩ rest (g t)) :
    Reaches w code r fuel ⟨.branch condition target :: no, μ, t⟩ rest
      (v.truth.goOn t fun b t' => if b then f t' else g t') := by
  cases v with
  | bool b =>
    cases b with
    | true => exact hf.of_leads (passes_branch_of_true hnodup hv hyes)
    | false => exact hg.of_leads (passes_branch_of_false hv)
  | _ => exact .single (step_branch_of_stuck fun b => by simp [hv])

/-- A loop, if each round of it goes on behind at least one step. -/
theorem loop {test : Vars → Act Effect Val Bool} {body : Vars → List Effect → Flow}
    (hround : ∀ k < fuel, ∀ vars μ t next, Vars.AgreesOn r vars μ →
      (∀ vars' μ' t', Vars.AgreesOn r vars' μ' →
        Reaches w code r k ⟨mid, μ', t'⟩ rest (next vars' t')) →
      Reaches w code r (k + 1) ⟨mid, μ, t⟩ rest ((test vars).goOn t fun b t' =>
        if b then (body vars t').andThen next else .next vars t'))
    {k : Nat} (hk : k ≤ fuel) (hμ : Vars.AgreesOn r vars μ) :
    Reaches w code r k ⟨mid, μ, t⟩ rest (loop test body k vars t) := by
  induction k generalizing vars μ t with
  | zero => exact .refl _ _
  | succ k ih =>
    unfold MiniJava.loop
    exact hround k hk vars μ t _ hμ fun vars' μ' t' hμ' => ih (Nat.le_of_succ_le hk) hμ'

end Reaches

end Reaches

/-! ## Code that does not go on -/

/-- Nothing runs on behind the last instruction. -/
def Ir.endsInJump (code : Code) : Bool := (code.getLast?.map Instr.isTerminator).getD false

theorem Ir.endsInJump_concat (p : Code) (i : Instr) : endsInJump (p ++ [i]) = i.isTerminator := by
  rw [endsInJump, List.getLast?_concat]
  rfl

theorem Ir.endsInJump_append (p : Code) {q : Code} (hq : q ≠ []) :
    endsInJump (p ++ q) = endsInJump q := by
  unfold endsInJump
  rw [List.getLast?_append_of_ne_nil p hq]

namespace Ir.Lower

/-- The code of a value runs on. -/
abbrev RunsOn (x : Lower Value) : Prop := Yields x (fun v => endsInJump v.code = false) fun _ => True

theorem assignTemp_runsOn (code : Code) (rhs : Rhs) : RunsOn (assignTemp code rhs) :=
  .seq fun _ => .pure (endsInJump_concat _ _)

theorem packArray_runsOn (t : IrType) (xs : List (Lower Value)) :
    Yields (packArray t xs) (fun a => endsInJump a.2 = false) fun _ => True := by
  intro s
  split
  · rename_i a s' ha
    obtain ⟨array, s₁, -, ha⟩ := run_bind_eq_ok.mp ha
    obtain ⟨code, s₂, hcode, ha⟩ := run_bind_eq_ok.mp ha
    obtain ⟨rfl, rfl⟩ := run_pure_eq_ok.mp ha
    cases xs with
    | nil =>
      cases hcode
      rfl
    | cons x xs =>
      obtain ⟨front, i, o, rfl⟩ := storeFrom_eq_ok hcode
      rw [← List.cons_append]
      exact endsInJump_concat _ _
  · exact trivial

theorem binary_runsOn (op : BinaryOp) (x y : Lower Value) : RunsOn (binary op x y) := by
  have hlogical (k : LabelKind) (code : Nat → Var → Value → Value → Code)
      (hcode : ∀ n result a b, endsInJump (code n result a b) = false) :
      RunsOn (do
        let n ← label k
        let result ← temp .boolean
        let a ← x
        let b ← y
        return ⟨.var result, code n result a b⟩) :=
    .seq fun n => .seq fun result => .seq fun a => .seq fun b => .pure (hcode n result a b)
  cases op with
  | and =>
    refine hlogical .and _ fun n result a b => ?_
    rw [endsInJump_append _ (List.cons_ne_nil _ _)]
    rfl
  | or =>
    refine hlogical .or _ fun n result a b => ?_
    rw [endsInJump_append _ (List.cons_ne_nil _ _)]
    rfl
  | _ => exact .seq fun _ => .seq fun _ => assignTemp_runsOn _ _

end Ir.Lower

namespace Scope

variable {sc : Scope} {w : World Effect Val} {s s' : Supply} {code : Code} {n : Node}

open Lower

theorem lowerExpr_runsOn (n : Node) (d : Ty) : RunsOn (sc.lowerExpr d n) := by
  induction n using Node.induction generalizing d with
  | step n ih =>
    obtain ⟨i, p, k⟩ := n
    cases k with
    | program | importDecl | classDecl | varDecl | methodDecl | param | assign | arrayAssign
    | returning | ifElse | whileLoop | block | exprStmt => exact .throw trivial
    | intLit | boolLit | this => exact .pure rfl
    | varRef name =>
      change RunsOn (sc.lowerName name p)
      unfold lowerName
      split
      · exact .pure rfl
      · exact .pure rfl
      · exact .pure rfl
      · exact assignTemp_runsOn _ _
      · exact .throw trivial
    | paren inner => exact ih inner List.mem_cons_self d
    | binary op left right => exact binary_runsOn op _ _
    | unary op operand =>
      cases op
      exact .seq fun _ => assignTemp_runsOn _ _
    | newObject className => exact .seq fun _ => .pure (endsInJump_concat _ _)
    | newArray element size => exact .seq fun _ => assignTemp_runsOn _ _
    | arrayAccess array index =>
      exact .seq fun _ => .seq fun _ => .seq fun _ => assignTemp_runsOn _ _
    | arrayLength array => exact .seq fun _ => .seq fun _ => assignTemp_runsOn _ _
    | arrayLit elements => exact (packArray_runsOn _ _).bind fun _ h => .pure h
    | call receiver method arguments =>
      refine .seq fun (c, code) => ?_
      by_cases hvoid : c.returnType = .void
      · simp only [hvoid, if_true]
        exact .seq fun _ => assignTemp_runsOn _ _
      · simp only [hvoid, if_false]
        exact assignTemp_runsOn _ _

theorem lowerDropped_runsOn (n : Node) :
    Yields (sc.lowerDropped n) (fun code => endsInJump code = false) fun _ => True := by
  induction n using Node.induction with
  | step n ih =>
    obtain ⟨i, p, k⟩ := n
    cases k with
    | paren inner => exact ih inner List.mem_cons_self
    | call receiver method arguments => exact .seq fun _ => .pure (endsInJump_concat _ _)
    | _ => exact (sc.lowerExpr_runsOn _ .void).bind fun _ h => .pure h

theorem lowerAssign_runsOn (target : String) (p : Position) (x : Lower Value) :
    Yields (sc.lowerAssign target p x) (fun code => endsInJump code = false) fun _ => True := by
  have hassign (dest : Var) (v : Value) : endsInJump ((retarget? dest v).getD
      (v.code ++ [.assign dest (.single v.operand)])) = false := by
    cases hretarget : retarget? dest v with
    | none => exact endsInJump_concat _ _
    | some code =>
      obtain ⟨front, last, rhs, rfl, rfl⟩ := retarget?_eq_some hretarget
      exact endsInJump_concat _ _
  refine .seq fun v => ?_
  split
  · exact .pure (hassign _ v)
  · exact .pure (hassign _ v)
  · exact .pure (endsInJump_concat _ _)
  · exact .throw trivial
  · exact .throw trivial

/-- If the code of a statement ends with a jump or a return, no execution of it goes on. -/
def EndsAsCode (sc : Scope) (w : World Effect Val) (n : Node) : Prop :=
  ∀ s code s', (sc.lowerStmt n).run s = .ok (code, s') → endsInJump code = true →
    ∀ fuel vars t vars' t', sc.exec w fuel n vars t ≠ .next vars' t'

/-- A statement whose code runs on. -/
theorem EndsAsCode.of_runsOn
    (h : Yields (sc.lowerStmt n) (fun code => endsInJump code = false) fun _ => True) :
    sc.EndsAsCode w n := by
  intro s code s' hcode hends
  rw [h.of_run hcode] at hends
  cases hends

theorem execAll_ne_next {ns : List Node} (h : ∀ n ∈ ns, sc.EndsAsCode w n)
    (hcode : (sc.lowerStmts ns).run s = .ok (code, s')) (hends : endsInJump code = true)
    (fuel : Nat) (vars : Vars) (t : List Effect) (vars' : Vars) (t' : List Effect) :
    sc.execAll w fuel ns vars t ≠ .next vars' t' := by
  induction ns generalizing s code vars t with
  | nil =>
    cases hcode
    cases hends
  | cons n ns ih =>
    obtain ⟨hn, hns⟩ := List.forall_mem_cons.mp h
    obtain ⟨p, s₁, hp, hcode⟩ := run_bind_eq_ok.mp hcode
    obtain ⟨q, s₂, hq, hcode⟩ := run_bind_eq_ok.mp hcode
    obtain ⟨rfl, rfl⟩ := run_pure_eq_ok.mp hcode
    intro hexec
    obtain ⟨vars₁, t₁, hfirst, hrest⟩ := Flow.andThen_eq_next hexec
    by_cases hempty : q = []
    · subst hempty
      rw [List.append_nil] at hends
      exact hn s p s₁ hp hends fuel vars t vars₁ t₁ hfirst
    · rw [endsInJump_append p hempty] at hends
      exact ih hns hq hends vars₁ t₁ hrest

/-- **No execution of a statement goes on if its code ends with a jump or a return.** -/
theorem endsAsCode (n : Node) : sc.EndsAsCode w n := by
  induction n using Node.induction with
  | step n ih =>
    obtain ⟨i, p, k⟩ := n
    cases k with
    | assign target value => exact .of_runsOn (sc.lowerAssign_runsOn target p _)
    | arrayAssign target index value =>
      exact .of_runsOn (.seq fun _ => .seq fun _ => .seq fun _ => .pure (endsInJump_concat _ _))
    | returning value =>
      intro s code s' _ _ fuel vars t vars' t' h
      cases value with
      | none => cases h
      | some value =>
        obtain ⟨v, u, -, hv⟩ := Act.goOn_eq_next h
        cases hv
    | ifElse c thenBranch elseBranch =>
      cases elseBranch with
      | none =>
        exact .of_runsOn (.seq fun _ => .seq fun _ => .seq fun _ => .pure (endsInJump_concat _ _))
      | some elseBranch =>
        exact .of_runsOn (.seq fun _ => .seq fun _ => .seq fun _ => .seq fun _ =>
          .pure (endsInJump_concat _ _))
    | whileLoop c body =>
      refine .of_runsOn (.seq fun _ => .seq fun _ => .seq fun _ => .pure ?_)
      rw [endsInJump_append _ (List.cons_ne_nil _ _)]
      rfl
    | block statements =>
      intro s code s' hcode hends
      exact execAll_ne_next ih hcode hends
    | exprStmt e => exact .of_runsOn (sc.lowerDropped_runsOn e)
    | _ => exact fun s code s' hcode => absurd hcode run_throw_ne_ok

/-! ## Statements -/

variable {r : List String} {vars μ : Vars}

/-- The code for a statement follows each execution of it. -/
def Executes (sc : Scope) (w : World Effect Val) (r : List String) (n : Node) : Prop :=
  ∀ s code s', s.reserved = r → (sc.lowerStmt n).run s = .ok (code, s') →
    ∀ full rest, (labels full).Nodup → code ++ rest <:+ full →
      ∀ fuel vars μ t, Vars.AgreesOn r vars μ →
        Reaches w full r fuel ⟨code ++ rest, μ, t⟩ rest (sc.exec w fuel n vars t)

theorem executes_assign (hr : sc.Reserves r) (i : Nat) (p : Position) (target : String)
    (value : Node) : sc.Executes w r ⟨i, p, .assign target value⟩ := by
  rintro s code s' rfl hcode full rest hnodup hrest fuel vars μ t hμ
  obtain ⟨v, s₁, hv, hcode⟩ := run_bind_eq_ok.mp hcode
  have himplements := (sc.means_lowerExpr w vars hr value _).implements s v s₁ rfl hv
  have hassign (dest : Var) (hdest : dest.name = target) : (erased w).Computes full
      ((retarget? dest v).getD (v.code ++ [.assign dest (.single v.operand)])) μ
      (do return vars.set target (← (sc.eval w vars (sc.targetDemand target) value).need))
      fun vars' μ' => Vars.AgreesOn s.reserved vars' μ' := by
    refine (himplements.sets dest full μ hnodup hμ).map ?_
    rintro b _ ⟨μ₁, hk, rfl⟩
    rw [hdest]
    exact (s.stable_agreesOn vars μ μ₁ hμ hk).set target b
  unfold exec
  refine .goOn_next ?_ hrest
  split at hcode <;> rename_i hlookup
  · obtain ⟨rfl, rfl⟩ := run_pure_eq_ok.mp hcode
    simp only [writeName, hlookup]
    exact hassign _ rfl
  · obtain ⟨rfl, rfl⟩ := run_pure_eq_ok.mp hcode
    simp only [writeName, hlookup]
    exact hassign _ rfl
  · rename_i ty
    obtain ⟨rfl, rfl⟩ := run_pure_eq_ok.mp hcode
    simp only [writeName, hlookup]
    have hput (b : Val) : Performs w s
        (fun μ => Vars.AgreesOn s.reserved vars μ ∧ v.operand.value w.this μ = b)
        [.putField sc.thisOperand ⟨target, .ofTy ty⟩ v.operand]
        (do let _ ← w.perform (.putField w.this target b); return vars)
        fun vars' μ => Vars.AgreesOn s.reserved vars' μ := by
      refine (Performs.effect fun μ hμ => ?_).map fun _ μ hμ => hμ.1
      rw [Instr.act, hμ.2]
      rfl
    exact ((himplements.performs.seq (s.stable_agreesOn vars) hput) full μ hnodup hμ).mono
      fun _ _ h => h.1
  · exact absurd hcode run_throw_ne_ok
  · exact absurd hcode run_throw_ne_ok

/-- The array that a name holds. -/
theorem performs_lowerArrayName (hr : sc.Reserves s.reserved) (target : String) (p : Position)
    {a : Var × Code} (ha : (sc.lowerArrayName target p).run s = .ok (a, s')) :
    Performs w s (Vars.AgreesOn s.reserved vars) a.2 (sc.readArrayName w target vars) fun b μ =>
      (Operand.var a.1).value w.this μ = b := by
  unfold lowerArrayName at ha
  unfold readArrayName readName
  split at ha <;> rename_i hlookup
  · obtain ⟨rfl, rfl⟩ := run_pure_eq_ok.mp ha
    simp only [hlookup]
    exact .pure fun μ hμ => hμ target (hr target _ hlookup rfl)
  · obtain ⟨rfl, rfl⟩ := run_pure_eq_ok.mp ha
    simp only [hlookup]
    exact .pure fun μ hμ => hμ target (hr target _ hlookup rfl)
  · obtain ⟨dest, s₁, hdest, ha⟩ := run_bind_eq_ok.mp ha
    obtain ⟨rfl, rfl⟩ := temp_eq_ok hdest
    obtain ⟨rfl, rfl⟩ := run_pure_eq_ok.mp ha
    simp only [hlookup]
    exact .assign s.mayIssue_temp fun μ _ => rfl
  · exact absurd ha run_throw_ne_ok
  · exact absurd ha run_throw_ne_ok

theorem executes_arrayAssign (hr : sc.Reserves r) (i : Nat) (p : Position) (target : String)
    (index value : Node) : sc.Executes w r ⟨i, p, .arrayAssign target index value⟩ := by
  rintro s code s' rfl hcode full rest hnodup hrest fuel vars μ t hμ
  obtain ⟨a, s₁, ha, hcode⟩ := run_bind_eq_ok.mp hcode
  obtain ⟨j, s₂, hj, hcode⟩ := run_bind_eq_ok.mp hcode
  obtain ⟨v, s₃, hv, hcode⟩ := run_bind_eq_ok.mp hcode
  obtain ⟨rfl, rfl⟩ := run_pure_eq_ok.mp hcode
  have hindex := sc.means_lowerExpr w vars hr index .int
  have hvalue := sc.means_lowerExpr w vars hr value (sc.elementDemand target)
  have hmade := sc.lowerArrayName_makes hr target p s a s₁ rfl ha
  have hmade' := hmade.append (hindex.makes s₁ j s₂ hmade.precedes.reserved hj)
  have hlast := (hvalue.implements s₂ v s' hmade'.precedes.reserved hv).performs
  rw [hmade'.precedes.reserved] at hlast
  have hoperands := (performs_operands (sc.performs_lowerArrayName hr target p ha) hmade hindex
    hmade.precedes.reserved hj).both hmade'.precedes (s.stable_agreesOn vars)
    (stable_operands hmade') hlast
  have hstore (b : (Val × Val) × Val) : Performs w s
      (fun μ => Vars.AgreesOn s.reserved vars μ ∧
        ((Operand.var a.1).value w.this μ = b.1.1 ∧ j.operand.value w.this μ = b.1.2) ∧
          v.operand.value w.this μ = b.2) [.arrayStore a.1 j.operand v.operand]
      (w.perform (.arrayStore b.1.1 b.1.2 b.2)) fun _ μ => Vars.AgreesOn s.reserved vars μ := by
    refine (Performs.effect fun μ hμ => ?_).mono (fun _ h => h) fun _ μ hμ => hμ.1
    obtain ⟨-, ⟨harray, hj⟩, hv⟩ := hμ
    rw [Instr.act, hj, hv, ← harray]
    rfl
  have hall := (hoperands.seq (s.stable_agreesOn vars) hstore) full μ hnodup hμ
  simp only [bind_assoc, pure_bind] at hall
  unfold exec
  exact .goOn hall hrest fun _ μ' _ hμ' => ⟨μ', hμ'.1, .refl _ _⟩

theorem executes_returning (hr : sc.Reserves r) (i : Nat) (p : Position) (value : Option Node) :
    sc.Executes w r ⟨i, p, .returning value⟩ := by
  rintro s code s' rfl hcode full rest hnodup hrest fuel vars μ t hμ
  cases value with
  | none =>
    obtain ⟨rfl, rfl⟩ := run_pure_eq_ok.mp hcode
    exact .single (Language.step_of_error rfl)
  | some value =>
    obtain ⟨v, s₁, hv, hcode⟩ := run_bind_eq_ok.mp hcode
    obtain ⟨rfl, rfl⟩ := run_pure_eq_ok.mp hcode
    have hvalue := sc.means_lowerExpr w vars hr value sc.resultDemand
    have hcomputes := (hvalue.implements s v s' rfl hv).performs full μ hnodup hμ
    unfold exec
    rw [List.append_assoc] at hrest ⊢
    refine .goOn hcomputes hrest fun b μ' t' hb => .single (Language.step_of_error ?_)
    rw [← hb.1]
    rfl

/-- Only a call may have no value. -/
theorem return_some_need_eval (n : Node) (d : Ty) (hcall : n.kind.label ≠ .call)
    (hparen : n.kind.label ≠ .paren) :
    (do return some (← (sc.eval w vars d n).need)) = sc.eval w vars d n := by
  obtain ⟨i, p, k⟩ := n
  cases k with
  | paren => exact absurd rfl hparen
  | call => exact absurd rfl hcall
  | intLit | boolLit | varRef | this | binary | newArray | arrayAccess | arrayLength | arrayLit
  | newObject => simp only [eval, Act.need_bind, Act.need_pure_some, bind_assoc, pure_bind]
  | unary op operand =>
    cases op
    simp only [eval, Act.need_bind, Act.need_pure_some, bind_assoc, pure_bind]
  | _ => rfl

theorem performs_lowerDropped (w : World Effect Val) (vars : Vars)
    (hr : sc.Reserves s.reserved) (n : Node)
    (hcode : (sc.lowerDropped n).run s = .ok (code, s')) :
    Performs w s (Vars.AgreesOn s.reserved vars) code (sc.eval w vars .void n) fun _ _ => True := by
  induction n using Node.induction with
  | step n ih =>
    by_cases hparen : n.kind.label = .paren
    · obtain ⟨i, p, k⟩ := n
      cases k with
      | paren inner => exact ih inner List.mem_cons_self hcode
      | _ => cases hparen
    by_cases hcall : n.kind.label = .call
    · obtain ⟨i, p, k⟩ := n
      cases k with
      | call receiver method arguments =>
        rw [lowerDropped_call] at hcode
        obtain ⟨⟨c, front⟩, s₁, hc, hcode⟩ := run_bind_eq_ok.mp hcode
        obtain ⟨rfl, rfl⟩ := run_pure_eq_ok.mp hcode
        have heach : List.Forall₂ (Means w vars s.reserved)
            (sc.lowerEach (sc.argumentDemands receiver method arguments) arguments) _ :=
          sc.forall₂_lowerEach (fun c _ d => sc.means_lowerExpr w vars hr c d) _
        obtain ⟨hmethod, hperforms⟩ := sc.performs_lowerCall receiver method arguments _
          (sc.means_lowerExpr w vars hr receiver .object) (fun _ hc => eval_of_staticReceiver? hc _)
          heach rfl hc
        have hlast (b : Val × List Val) : Performs w s
            (fun μ => Vars.AgreesOn s.reserved vars μ ∧ c.target.value w.this μ = b.1 ∧
              c.arguments.map (Operand.value w.this μ) = b.2) [.call c]
            (w.perform (.call b.1 method b.2)) fun _ _ => True := by
          refine (Performs.effect fun μ hμ => ?_).mono (fun _ h => h) fun _ _ _ => trivial
          rw [Instr.act, Call.effect, hμ.2.1, hμ.2.2, ← hmethod]
          rfl
        have hall := hperforms.seq (s.stable_agreesOn vars) hlast
        simp only [bind_assoc, pure_bind] at hall
        exact hall
      | _ => cases hcall
    · have hdropped : sc.lowerDropped n = (do return (← sc.lowerExpr .void n).code) := by
        obtain ⟨i, p, k⟩ := n
        cases k with
        | paren => exact absurd rfl hparen
        | call => exact absurd rfl hcall
        | _ => rfl
      rw [hdropped] at hcode
      obtain ⟨v, s₁, hv, hcode⟩ := run_bind_eq_ok.mp hcode
      obtain ⟨rfl, rfl⟩ := run_pure_eq_ok.mp hcode
      rw [← return_some_need_eval n .void hcall hparen]
      exact ((sc.means_lowerExpr w vars hr n .void).implements s v s' rfl hv).performs.map
        fun _ _ _ => trivial

theorem executes_exprStmt (hr : sc.Reserves r) (i : Nat) (p : Position) (e : Node) :
    sc.Executes w r ⟨i, p, .exprStmt e⟩ := by
  rintro s code s' rfl hcode full rest hnodup hrest fuel vars μ t hμ
  have hcomputes := sc.performs_lowerDropped w vars hr e hcode full μ hnodup hμ
  unfold exec
  exact .goOn hcomputes hrest fun _ μ' _ hμ' =>
    ⟨μ', s.stable_agreesOn vars μ μ' hμ hμ'.2, .refl _ _⟩

/-- The code for a condition computes the value whose truth is asked for. -/
theorem computes_condition (w : World Effect Val) (vars : Vars) (hr : sc.Reserves r)
    (hs : s.reserved = r) {condition : Node} {v : Value}
    (hv : (sc.lowerExpr .boolean condition).run s = .ok (v, s')) {full : Code}
    (hnodup : (labels full).Nodup) (hμ : Vars.AgreesOn r vars μ) :
    (erased w).Computes full v.code μ (sc.eval w vars .boolean condition).need fun b μ' =>
      v.operand.value w.this μ' = b ∧ Vars.AgreesOn r vars μ' := by
  have himplements := (sc.means_lowerExpr w vars hr condition .boolean).implements s v s' hs hv
  subst hs
  exact (himplements.performs full μ hnodup hμ).mono fun b μ' h =>
    ⟨h.1, s.stable_agreesOn vars μ μ' hμ h.2⟩

theorem executes_ifThen (hr : sc.Reserves r) (i : Nat) (p : Position) (c : Node)
    {thenBranch : Node} (hthen : sc.Executes w r thenBranch) :
    sc.Executes w r ⟨i, p, .ifElse c thenBranch none⟩ := by
  intro s code s' hs hcode full rest hnodup hrest fuel vars μ t hμ
  obtain ⟨n, s₁, hn, hcode⟩ := run_bind_eq_ok.mp hcode
  have hs₁ : (s.label .ifElse).2.reserved = r := hs
  obtain ⟨rfl, rfl⟩ := label_eq_ok hn
  obtain ⟨v, s₂, hv, hcode⟩ := run_bind_eq_ok.mp hcode
  obtain ⟨thenCode, s₃, ht, hcode⟩ := run_bind_eq_ok.mp hcode
  obtain ⟨rfl, rfl⟩ := run_pure_eq_ok.mp hcode
  have hs₂ := (sc.lowerExpr_makes hr c .boolean _ v s₂ hs₁ hv).precedes.reserved.trans hs₁
  simp only [List.append_assoc, List.cons_append, List.nil_append] at hrest ⊢
  have hbranch := (List.suffix_append v.code _).trans hrest
  have hgoto := (List.suffix_cons _ _).trans hbranch
  have hlabel := (List.suffix_cons _ _).trans hgoto
  have hyes := (List.suffix_cons _ _).trans hlabel
  have hend := (List.suffix_append thenCode _).trans hyes
  unfold exec evalCondition
  rw [Act.goOn_bind]
  refine .goOn (sc.computes_condition w vars hr hs₁ hv hnodup hμ) hrest fun b μ' t' hb => ?_
  have hthen' := hthen s₂ thenCode s' hs₂ ht full _ hnodup hyes fuel vars μ' t' hb.2
  exact .branch hnodup hb.1 hlabel (hthen'.leads fun _ _ => passes_label)
    ⟨μ', hb.2, passes_goto hnodup hend⟩

/-- The jump behind code for the first case, or none where the code does not go on. -/
theorem closeWith_cons_append (i : Instr) (p : Code) (target : String) (q : Code)
    (hi : i.isTerminator = false) : closeWith (i :: p) target ++ q =
      i :: (p ++ if endsInJump p then q else .goto target :: q) := by
  have hends : endsInJump (i :: p) = endsInJump p := by
    cases p with
    | nil => exact hi
    | cons j p => exact endsInJump_append [i] (List.cons_ne_nil j p)
  change (if endsInJump (i :: p) then i :: p else i :: p ++ [.goto target]) ++ q = _
  rw [hends]
  split <;> simp

theorem executes_ifElse (hr : sc.Reserves r) (i : Nat) (p : Position) (c : Node)
    {thenBranch elseBranch : Node} (hthen : sc.Executes w r thenBranch)
    (helse : sc.Executes w r elseBranch) :
    sc.Executes w r ⟨i, p, .ifElse c thenBranch (some elseBranch)⟩ := by
  intro s code s' hs hcode full rest hnodup hrest fuel vars μ t hμ
  obtain ⟨n, s₁, hn, hcode⟩ := run_bind_eq_ok.mp hcode
  have hs₁ : (s.label .ifElse).2.reserved = r := hs
  obtain ⟨rfl, rfl⟩ := label_eq_ok hn
  obtain ⟨v, s₂, hv, hcode⟩ := run_bind_eq_ok.mp hcode
  obtain ⟨elseCode, s₃, he, hcode⟩ := run_bind_eq_ok.mp hcode
  obtain ⟨thenCode, s₄, ht, hcode⟩ := run_bind_eq_ok.mp hcode
  obtain ⟨rfl, rfl⟩ := run_pure_eq_ok.mp hcode
  have hs₂ := (sc.lowerExpr_makes hr c .boolean _ v s₂ hs₁ hv).precedes.reserved.trans hs₁
  have hs₃ := (sc.lowerStmt_makes hr elseBranch s₂ elseCode s₃ hs₂ he).precedes.reserved.trans hs₂
  simp only [List.append_assoc, List.cons_append, List.nil_append] at hrest ⊢
  rw [closeWith_cons_append _ _ _ _ rfl] at hrest ⊢
  have hbranch := (List.suffix_append v.code _).trans hrest
  have hno := (List.suffix_cons _ _).trans hbranch
  have hlabel : .label ("if_then_" ++ toString (s.label .ifElse).1) ::
      (thenCode ++ .label ("if_end_" ++ toString (s.label .ifElse).1) :: rest) <:+ full := by
    refine List.IsSuffix.trans ?_ ((List.suffix_append elseCode _).trans hno)
    split
    · exact List.suffix_refl _
    · exact List.suffix_cons _ _
  have hyes := (List.suffix_cons _ _).trans hlabel
  have hend := (List.suffix_append thenCode _).trans hyes
  unfold exec evalCondition
  rw [Act.goOn_bind]
  refine .goOn (sc.computes_condition w vars hr hs₁ hv hnodup hμ) hrest fun b μ' t' hb => ?_
  have hthen' := hthen s₃ thenCode s' hs₃ ht full _ hnodup hyes fuel vars μ' t' hb.2
  have helse' := helse s₂ elseCode s₃ hs₂ he full _ hnodup hno fuel vars μ' t' hb.2
  refine .branch hnodup hb.1 hlabel (hthen'.leads fun _ _ => passes_label) ?_
  by_cases hends : endsInJump elseCode = true
  · exact helse'.of_ne_next (sc.endsAsCode elseBranch s₂ elseCode s₃ he hends fuel vars t')
  · refine helse'.leads fun _ _ => ?_
    rw [if_neg hends]
    exact passes_goto hnodup hend

theorem executes_whileLoop (hr : sc.Reserves r) (i : Nat) (p : Position) (c : Node) {body : Node}
    (hbody : sc.Executes w r body) : sc.Executes w r ⟨i, p, .whileLoop c body⟩ := by
  intro s code s' hs hcode full rest hnodup hrest fuel vars μ t hμ
  obtain ⟨n, s₁, hn, hcode⟩ := run_bind_eq_ok.mp hcode
  have hs₁ : (s.label .whileLoop).2.reserved = r := hs
  obtain ⟨rfl, rfl⟩ := label_eq_ok hn
  obtain ⟨v, s₂, hv, hcode⟩ := run_bind_eq_ok.mp hcode
  obtain ⟨bodyCode, s₃, hb, hcode⟩ := run_bind_eq_ok.mp hcode
  obtain ⟨rfl, rfl⟩ := run_pure_eq_ok.mp hcode
  have hs₂ := (sc.lowerExpr_makes hr c .boolean _ v s₂ hs₁ hv).precedes.reserved.trans hs₁
  simp only [List.append_assoc, List.cons_append, List.nil_append] at hrest ⊢
  have hcond := (List.suffix_cons _ _).trans hrest
  have hbranch := (List.suffix_append v.code _).trans hcond
  have hgoto := (List.suffix_cons _ _).trans hbranch
  have hlabel := (List.suffix_cons _ _).trans hgoto
  have hyes := (List.suffix_cons _ _).trans hlabel
  have hback := (List.suffix_append bodyCode _).trans hyes
  have hend := (List.suffix_cons _ _).trans hback
  unfold exec
  refine .of_leads (.loop (fun k hk vars μ t next hμ hnext => ?_) (Nat.le_refl fuel) hμ)
    passes_label
  unfold evalCondition
  rw [Act.goOn_bind]
  refine .goOn (sc.computes_condition w vars hr hs₁ hv hnodup hμ) hcond fun b μ' t' hb' => ?_
  refine .branch hnodup hb'.1 hlabel ?_ ⟨μ', hb'.2, passes_goto hnodup hend⟩
  have hbody' := hbody s₂ bodyCode s' hs₂ hb full _ hnodup hyes fuel vars μ' t' hb'.2
  -- The jump back is the step that the next round needs.
  exact (hbody'.mono hk).andThen fun vars' μ'' t'' hμ'' =>
    (hnext vars' μ'' t'' hμ'').cons (Language.step_of_jump hnodup rfl rfl hrest)

theorem reaches_lowerStmts {ns : List Node} (hr : sc.Reserves r) (h : ∀ n ∈ ns, sc.Executes w r n)
    (hs : s.reserved = r) (hcode : (sc.lowerStmts ns).run s = .ok (code, s')) {full rest : Code}
    (hnodup : (labels full).Nodup) (hrest : code ++ rest <:+ full) (fuel : Nat) (t : List Effect)
    (hμ : Vars.AgreesOn r vars μ) :
    Reaches w full r fuel ⟨code ++ rest, μ, t⟩ rest (sc.execAll w fuel ns vars t) := by
  induction ns generalizing s code vars μ t with
  | nil =>
    cases hcode
    exact ⟨μ, hμ, .refl _ _⟩
  | cons n ns ih =>
    obtain ⟨hn, hns⟩ := List.forall_mem_cons.mp h
    obtain ⟨p, s₁, hp, hcode⟩ := run_bind_eq_ok.mp hcode
    obtain ⟨q, s₂, hq, hcode⟩ := run_bind_eq_ok.mp hcode
    obtain ⟨rfl, rfl⟩ := run_pure_eq_ok.mp hcode
    have hs₁ := (sc.lowerStmt_makes hr n s p s₁ hs hp).precedes.reserved.trans hs
    rw [List.append_assoc] at hrest ⊢
    exact (hn s p s₁ hs hp full _ hnodup hrest fuel vars μ t hμ).andThen fun vars' μ' t' hμ' =>
      ih hns hs₁ hq ((List.suffix_append p _).trans hrest) t' hμ'

/-- **The code for a statement follows each execution of it.** -/
theorem executes (w : World Effect Val) (hr : sc.Reserves r) (n : Node) : sc.Executes w r n := by
  induction n using Node.induction with
  | step n ih =>
    obtain ⟨i, p, k⟩ := n
    cases k with
    | assign target value => exact sc.executes_assign hr i p target value
    | arrayAssign target index value => exact sc.executes_arrayAssign hr i p target index value
    | returning value => exact sc.executes_returning hr i p value
    | ifElse c thenBranch elseBranch =>
      have hthen := ih thenBranch mem_second
      cases elseBranch with
      | none => exact sc.executes_ifThen hr i p c hthen
      | some elseBranch =>
        exact sc.executes_ifElse hr i p c hthen
          (ih elseBranch mem_third)
    | whileLoop c body =>
      exact sc.executes_whileLoop hr i p c (ih body mem_second)
    | block statements =>
      intro s code s' hs hcode full rest hnodup hrest fuel vars μ t hμ
      unfold exec
      exact sc.reaches_lowerStmts hr ih hs hcode hnodup hrest fuel t hμ
    | exprStmt e => exact sc.executes_exprStmt hr i p e
    | _ => exact fun s code s' _ hcode => absurd hcode run_throw_ne_ok

end Scope

end MiniJava
