import MiniJava.Proofs.Emission.Encoding

/-!
# The execution of a block

The block of an instruction loads the operands, computes with what is then on the stack, and stores
or uses the result. Executed from an empty stack it does what the instruction of three-address code
does, wherever it stands (`Frame.does_block`): it falls through or jumps in the same case, ends with
the same outcome, has the same effects, and leaves an empty stack and each variable in its register.

The parts of a block come in this order. A variable of the method is in its register, with a value
of the sort that its type tells (`Frame.Holds`), so loading an operand puts what stands for its
value on the stack (`Frame.Puts`, `leads_map_loading`). Each sort of right-hand side computes what
stands for its value from what stands for the operands (`computes_computing`); a comparison takes
the jump over the constant 0 exactly if it holds (`computes_comparing`). What an instruction does
with the result is `Frame.Does`, with one lemma for each kind of instruction.
-/

namespace MiniJava

open Ir (BinOp Call IrType Operand Rhs Var)

namespace Ir

/-! ## The operands of an instruction -/

theorem Call.isValue_of_mem_operands {c : Call} (hc : c.hasBlock = true) {o : Operand}
    (ho : o ∈ c.operands) : o.isValue = true := by
  obtain ⟨invocation, target, method, arguments, returnType, paramTypes⟩ := c
  obtain ⟨hreceiver, hargs⟩ := (Bool.and_eq_true _ _).mp hc
  rcases List.mem_append.mp ho with ho | ho
  · cases invocation with
    | static => cases ho
    | _ =>
      obtain rfl := List.mem_singleton.mp ho
      exact ((Bool.and_eq_true _ _).mp hreceiver).2
  · exact List.all_eq_true.mp hargs o ho

theorem Call.mem_of_mem_operands {c : Call} {o : Operand} (ho : o ∈ c.operands) :
    o ∈ c.target :: c.arguments := by
  unfold operands at ho
  split at ho
  · exact List.mem_cons_of_mem _ ho
  · exact ho

variable {i : Instr} {o : Operand} {ctx : Context}

theorem Rhs.isValue_of_mem_operands {r : Rhs} (hr : r.hasBlock = true) (ho : o ∈ r.operands) :
    o.isValue = true := by
  cases r with
  | call c => exact c.isValue_of_mem_operands hr ho
  | _ =>
    simp only [operands, hasBlock, Operand.isObject] at ho hr
    grind [Operand.isValue]

/-- The operands of an instruction with a block are values. -/
theorem Instr.isValue_of_mem_operands (hi : i.hasBlock = true) (ho : o ∈ i.operands) :
    o.isValue = true := by
  cases i with
  | assign dest value => exact Rhs.isValue_of_mem_operands hi ho
  | call c => exact c.isValue_of_mem_operands hi ho
  | ret value =>
    cases value with
    | none => cases ho
    | some value =>
      obtain rfl := List.mem_singleton.mp ho
      exact hi
  | _ =>
    simp only [operands, hasBlock, Operand.isObject] at ho hi
    grind [Operand.isValue]

/-- The operands of a well-typed instruction are well-typed. -/
theorem Rhs.wellTyped_of_mem_operands {r : Rhs} (hr : r.WellTyped ctx) (ho : o ∈ r.operands) :
    o.WellTyped ctx := by
  cases r with
  | call c => exact hr.1.operands o (c.mem_of_mem_operands ho)
  | _ =>
    simp only [operands, WellTyped] at ho hr
    grind [Operand.WellTyped]

/-- The operands of a well-typed instruction are well-typed. -/
theorem Instr.wellTyped_of_mem_operands (hi : i.WellTyped ctx) (ho : o ∈ i.operands) :
    o.WellTyped ctx := by
  cases i with
  | assign dest value => exact Rhs.wellTyped_of_mem_operands hi.1 ho
  | call c => exact hi.operands o (c.mem_of_mem_operands ho)
  | ret value =>
    cases value with
    | none => cases ho
    | some value =>
      obtain rfl := List.mem_singleton.mp ho
      exact hi
  | _ =>
    simp only [operands, WellTyped] at ho hi
    grind [Operand.WellTyped]

theorem Call.mem_vars_of_mem_operands {c : Call} (ho : o ∈ c.operands) {v : Var}
    (hv : v ∈ o.vars) : v ∈ c.vars := by
  rcases List.mem_cons.mp (c.mem_of_mem_operands ho) with rfl | ho
  · exact List.mem_append_left _ hv
  · exact List.mem_append_right _ (List.mem_flatMap.mpr ⟨o, ho, hv⟩)

theorem Rhs.mem_vars_of_mem_operands {r : Rhs} (ho : o ∈ r.operands) {v : Var}
    (hv : v ∈ o.vars) : v ∈ r.vars := by
  cases r with
  | call c => exact c.mem_vars_of_mem_operands ho hv
  | _ =>
    simp only [operands, vars] at ho ⊢
    grind [Operand.vars]

/-- The variables among the operands are those of the instruction. -/
theorem Instr.mem_vars_of_mem_operands (ho : o ∈ i.operands) {v : Var} (hv : v ∈ o.vars) :
    v ∈ i.vars := by
  cases i with
  | assign dest value => exact List.mem_cons_of_mem _ (value.mem_vars_of_mem_operands ho hv)
  | call c => exact c.mem_vars_of_mem_operands ho hv
  | ret value =>
    cases value with
    | none => cases ho
    | some value =>
      obtain rfl := List.mem_singleton.mp ho
      exact hv
  | _ =>
    simp only [operands, vars] at ho ⊢
    grind [Operand.vars]

end Ir

namespace Jvm

/-- The instructions in a world that answers as it does three-address code. -/
abbrev encoded (w : World Effect MiniJava.Val) : Language Instr Locals Effect Val :=
  language (w.map MiniJava.Val.encode)

variable {w : World Effect MiniJava.Val} {code rest : List Instr} {i : Instr} {l : Locals}
  {e : Effect} {σ : ElementSort} {v : MiniJava.Val} {s : List Val} {r : UInt16 → Val}
  {h h' : List Effect} {n : Nat}

/-! ## Effects -/

/-- The result of an effect is of the right sort. -/
theorem Answers.hasSort_of_ask (hw : Answers w) (he : e.result? = some σ)
    (hrun : ((w.ask e).mapEnding MiniJava.Val.encode).run h = (.ok v, h')) : v.HasSort σ := by
  simp only [World.ask, World.perform, Act.mapEnding, Act.need, Act.run_bind] at hrun
  cases hreply : w.reply h e with
  | returned x =>
    obtain ⟨v', rfl, hv'⟩ := hw h e σ he x hreply
    simp only [hreply] at hrun
    cases hrun
    exact hv'
  | _ =>
    simp only [hreply] at hrun
    cases hrun

/-- An instruction that has an effect and leaves its result. -/
theorem computes_ask (hw : Answers w) (he : e.result? = some σ)
    (hact : i.act (w.map MiniJava.Val.encode) l =
      Locals.perform ⟨s, r⟩ (w.map MiniJava.Val.encode) e) :
    (encoded w).Computes code [i] l ((w.ask e).mapEnding MiniJava.Val.encode)
      fun v l' => v.HasSort σ ∧ l' = ⟨v.encode :: s, r⟩ := by
  refine .single_of_run (g := fun v => ⟨v.encode :: s, r⟩) ?_
    fun v h h' hrun => ⟨hw.hasSort_of_ask he hrun, rfl⟩
  change i.act _ l = _
  rw [hact]
  unfold Locals.perform
  rw [he]
  simp [World.ask_map]

/-- An instruction that has an effect without a result. -/
theorem computes_perform (he : e.result? = none)
    (hact : i.act (w.map MiniJava.Val.encode) l =
      Locals.perform ⟨s, r⟩ (w.map MiniJava.Val.encode) e) :
    (encoded w).Computes code [i] l ((w.perform e).mapEnding MiniJava.Val.encode)
      fun _ l' => l' = ⟨s, r⟩ := by
  refine .single (g := fun _ => ⟨s, r⟩) ?_ fun _ => rfl
  change i.act _ l = _
  rw [hact]
  unfold Locals.perform
  rw [he]
  simp [World.perform_map]

/-! ## Variables in registers -/

/-- Each variable is in its register, with a value of its type, and so is the object whose method
runs. -/
structure Frame.Holds (fr : Frame) (m : Ir.Method) (this : MiniJava.Val) (vars : Vars)
    (r : UInt16 → Val) : Prop where
  vars : ∀ v ∈ m.vars, r (fr.slot v) = (vars v.name).encode ∧ (vars v.name).HasType v.type
  this : m.isStatic = false → r 0 = this.encode ∧ this.HasSort .ref

/-- A method with well-typed code whose variables have registers of their own. -/
structure Frame.Suits (fr : Frame) (u : Ir.ClassUnit) (m : Ir.Method) : Prop where
  wellTyped : m.WellTyped u
  registers : fr.registers = .ofMethod m
  own : m.HasOwnRegisters

variable {fr : Frame} {u : Ir.ClassUnit} {m : Ir.Method} {vars : Vars} {o : Operand}
  {os : List Operand}

namespace Frame

theorem Suits.get?_eq (hfr : fr.Suits u m) {x : Var} (hx : x ∈ m.vars) :
    (Registers.ofMethod m).get? x.name = some (fr.slot x) := by
  obtain ⟨k, hk⟩ := Option.isSome_iff_exists.mp (hasRegisters_ofMethod ⟨"", []⟩ m x hx)
  have hget : (Registers.ofMethod m).get? x.name = some k := hk
  rw [slot, hfr.registers, hget, Option.getD_some]

theorem Suits.slot_inj (hfr : fr.Suits u m) {x y : Var} (hx : x ∈ m.vars) (hy : y ∈ m.vars)
    (hslot : fr.slot x = fr.slot y) : x.name = y.name :=
  hfr.own.eq_of_get?_eq x hx y hy (by rw [hfr.get?_eq hx, hfr.get?_eq hy, hslot])

theorem Suits.slot_ne_zero (hfr : fr.Suits u m) {x : Var} (hx : x ∈ m.vars)
    (hm : m.isStatic = false) : fr.slot x ≠ 0 := fun hzero =>
  hfr.own.ne_this hm x hx (by rw [hfr.get?_eq hx, hzero])

/-- A variable takes a value, and all others keep theirs. -/
theorem Holds.set (hfr : fr.Suits u m) (hr : fr.Holds m w.this vars r) {x : Var} (hx : x ∈ m.vars)
    (hv : v.HasType x.type) : fr.Holds m w.this (vars.set x.name v)
      fun r' => if r' = fr.slot x then v.encode else r r' := by
  refine ⟨fun y hy => ?_, fun hm => ?_⟩
  · by_cases hname : y.name = x.name
    · have hslot : fr.slot y = fr.slot x := by
        unfold slot
        rw [hname]
      obtain ⟨types, htypes⟩ := hfr.wellTyped.consistent
      rw [if_pos hslot, hname, Vars.set_self, htypes y hy, hname, ← htypes x hx]
      exact ⟨rfl, hv⟩
    · rw [if_neg fun hslot => hname (hfr.slot_inj hy hx hslot), vars.set_of_ne v hname]
      exact hr.vars y hy
  · rw [if_neg (hfr.slot_ne_zero hx hm).symm]
    exact hr.this hm

/-- The value of the operand is put on the stack, and has the type of the operand. -/
def Puts (fr : Frame) (w : World Effect MiniJava.Val) (vars : Vars) (r : UInt16 → Val)
    (o : Operand) : Prop :=
  (o.value w.this vars).HasType o.type ∧ ∀ code rest s h,
    ((encoded w).machine code).Leads ⟨fr.loading o :: rest, ⟨s, r⟩, h⟩
      (.running ⟨rest, ⟨(o.value w.this vars).encode :: s, r⟩, h⟩)

theorem leads_load {f : Family} {k : UInt16} {x : Val} (hx : r k = x) (hmoves : f.moves x = true) :
    ((encoded w).machine code).Leads ⟨.load f k :: rest, ⟨s, r⟩, h⟩
      (.running ⟨rest, ⟨x :: s, r⟩, h⟩) := by
  subst hx
  have hact : (encoded w).act (.load f k) ⟨s, r⟩ = return .fall ⟨r k :: s, r⟩ := if_pos hmoves
  exact .single (Language.step_of_fall (by rw [hact]; rfl))

theorem Holds.puts (hr : fr.Holds m w.this vars r) (ho : o.WellTyped (u.context m))
    (hvalue : o.isValue = true) (hvars : ∀ v ∈ o.vars, v ∈ m.vars) : fr.Puts w vars r o := by
  cases o with
  | literal n t =>
    rcases ho with rfl | ⟨rfl, rfl | rfl⟩
    · exact ⟨trivial, fun _ _ _ _ => .single (Language.step_of_fall rfl)⟩
    · exact ⟨trivial, fun _ _ _ _ => .single (Language.step_of_fall rfl)⟩
    · exact ⟨trivial, fun _ _ _ _ => .single (Language.step_of_fall rfl)⟩
  | var x =>
    obtain ⟨hslot, htype⟩ := hr.vars x (hvars x List.mem_cons_self)
    exact ⟨htype, fun _ _ _ _ => leads_load hslot (MiniJava.Val.moves_encode htype)⟩
  | «this» className =>
    obtain ⟨hthis, hsort⟩ := hr.this ho
    have hmoves : Family.ref.moves w.this.encode = true :=
      MiniJava.Val.moves_encode (t := .classRef className) hsort
    exact ⟨hsort, fun _ _ _ _ => leads_load hthis hmoves⟩
  | classRef name => cases hvalue

/-- Operands are put on the stack one after the other. -/
theorem leads_map_loading (hos : ∀ o ∈ os, fr.Puts w vars r o) :
    ((encoded w).machine code).Leads ⟨os.map fr.loading ++ rest, ⟨s, r⟩, h⟩
      (.running ⟨rest, ⟨(os.map fun o => (o.value w.this vars).encode).reverse ++ s, r⟩, h⟩) := by
  induction os generalizing s with
  | nil => exact .refl _ _
  | cons o os ih =>
    obtain ⟨⟨-, ho⟩, hos⟩ := List.forall_mem_cons.mp hos
    have hrest := (ho code (os.map fr.loading ++ rest) s h).trans (ih hos)
    simpa using hrest

end Frame

/-! ## Computing a value -/

theorem act_ifCompare (c : Comparison) (target : String) (x y : Val) :
    (encoded w).act (.ifCompare c target) ⟨y :: x :: s, r⟩ =
      match c.holds? x y with
      | some true => pure (.jump target ⟨s, r⟩)
      | some false => pure (.fall ⟨s, r⟩)
      | none => Act.stop .stuck :=
  rfl

/-- A comparison leaves its truth value. -/
theorem computes_comparing (hnodup : ((encoded w).labels code).Nodup) (c : Comparison) (n : Nat)
    (x y : Val) : (encoded w).Computes code (comparing c n) ⟨y :: x :: s, r⟩
      (match c.holds? x y with
        | some b => pure b
        | none => Act.stop .stuck)
      fun b l' => l' = ⟨.int (if b then 1 else 0) :: s, r⟩ := by
  intro rest hrest h
  have hsecond : .label ("cmp_true_" ++ toString n) :: .const 1 ::
      .label ("cmp_end_" ++ toString n) :: rest <:+ code :=
    .trans ⟨[.ifCompare c ("cmp_true_" ++ toString n), .const 0,
      .goto ("cmp_end_" ++ toString n)], rfl⟩ hrest
  have hend : .label ("cmp_end_" ++ toString n) :: rest <:+ code :=
    .trans ⟨[.label ("cmp_true_" ++ toString n), .const 1], rfl⟩ hsecond
  cases hholds : c.holds? x y with
  | none =>
    exact .single (Language.step_of_error (by rw [act_ifCompare, hholds]; rfl))
  | some b =>
    refine ⟨_, rfl, ?_⟩
    cases b with
    | true =>
      refine .cons (Language.step_of_jump hnodup (by rw [act_ifCompare, hholds]; rfl) rfl hsecond) ?_
      refine .cons (Language.step_of_fall rfl) ?_
      exact .single (Language.step_of_fall rfl)
    | false =>
      refine .cons (Language.step_of_fall (by rw [act_ifCompare, hholds]; rfl)) ?_
      refine .cons (Language.step_of_fall rfl) ?_
      exact .single (Language.step_of_jump hnodup rfl rfl hend)

/-- An operation on integers leaves an integer. -/
theorem computes_arith (op : Arith) {v₁ v₂ : MiniJava.Val} (h₁ : v₁.HasSort .int)
    (h₂ : v₂.HasSort .int) : (encoded w).Computes code [.arith op] ⟨v₂.encode :: v₁.encode :: s, r⟩
      ((Act.ofExcept (op.toOperator.eval v₁ v₂)).mapEnding MiniJava.Val.encode)
      fun v l' => v.HasSort .int ∧ l' = ⟨v.encode :: s, r⟩ := by
  refine .single_of_run (g := fun v => ⟨v.encode :: s, r⟩) (act_arith op h₁ h₂) ?_
  intro v h h' hrun
  refine ⟨?_, rfl⟩
  cases v₁ <;> cases h₁ <;> cases v₂ <;> cases h₂
  · rename_i a b
    rcases eval_arith op a b with ⟨c, -, hc⟩ | ⟨-, hc⟩
    · rw [hc] at hrun
      cases hrun
      trivial
    · rw [hc] at hrun
      cases hrun
  all_goals cases hrun

/-- A negation leaves a truth value. -/
theorem computes_not (hv : v.HasSort .boolean) :
    (encoded w).Computes code [.const 1, .xor] ⟨v.encode :: s, r⟩
      ((v.not : Act Effect MiniJava.Val MiniJava.Val).mapEnding MiniJava.Val.encode)
      fun v l' => v.HasSort .boolean ∧ l' = ⟨v.encode :: s, r⟩ := by
  have hone : (encoded w).Computes code [.const 1] ⟨v.encode :: s, r⟩ (pure ())
      fun _ l' => l' = ⟨.int 1 :: v.encode :: s, r⟩ :=
    .single (g := fun _ => ⟨.int 1 :: v.encode :: s, r⟩) rfl fun _ => rfl
  refine hone.bind (q := [.xor]) (f := fun _ => v.not.mapEnding MiniJava.Val.encode)
    fun _ l' hl' => ?_
  subst hl'
  refine .single_of_run (g := fun v => ⟨v.encode :: s, r⟩) (act_xor hv) fun v' h h' hrun => ?_
  cases v with
  | bool b =>
    cases hrun
    exact ⟨trivial, rfl⟩
  | _ => cases hrun

/-- An operation on two values of one type leaves its result. -/
theorem computes_operating (hnodup : ((encoded w).labels code).Nodup) {op : BinOp} {t : IrType}
    {v₁ v₂ : MiniJava.Val} (h₁ : v₁.HasType t) (h₂ : v₂.HasType t)
    (hordered : op ≠ .eq → op ≠ .ne → t = .int32) :
    (encoded w).Computes code (operating op t.isReference n) ⟨v₂.encode :: v₁.encode :: s, r⟩
      ((Act.ofExcept (op.toOperator.eval v₁ v₂)).mapEnding MiniJava.Val.encode)
      fun v l' => v.HasType op.resultType ∧ l' = ⟨v.encode :: s, r⟩ := by
  have hsort : t.isReference = (ElementSort.ofType t == .ref) := by cases t <;> rfl
  have hcompare (hop : op.isComparison = true) : (encoded w).Computes code
      (comparing (Frame.comparison op t.isReference) n) ⟨v₂.encode :: v₁.encode :: s, r⟩
      ((Act.ofExcept (op.toOperator.eval v₁ v₂)).mapEnding MiniJava.Val.encode)
      fun v l' => v.HasType op.resultType ∧ l' = ⟨v.encode :: s, r⟩ := by
    have hcomputes := computes_comparing (s := s) (r := r) hnodup
      (Frame.comparison op t.isReference) n v₁.encode v₂.encode
    have hresult : op.resultType = .boolean := if_pos hop
    have hint (hne : op ≠ .eq) (hne' : op ≠ .ne) : ElementSort.ofType t = .int := by
      rw [hordered hne hne']
      rfl
    rw [hresult]
    rw [hsort] at hcomputes ⊢
    rcases holds?_encode hop h₁ h₂ hint with ⟨b, heval, hholds⟩ | ⟨heval, hholds⟩
    · rw [hholds] at hcomputes
      rw [heval]
      exact hcomputes.map (g := MiniJava.Val.bool) fun b l' hl' => ⟨trivial, hl'⟩
    · rw [hholds] at hcomputes
      rw [heval]
      exact hcomputes.map (g := MiniJava.Val.bool) fun b l' hl' => ⟨trivial, hl'⟩
  cases op with
  | add =>
    cases hordered nofun nofun
    exact computes_arith .add h₁ h₂
  | sub =>
    cases hordered nofun nofun
    exact computes_arith .sub h₁ h₂
  | mul =>
    cases hordered nofun nofun
    exact computes_arith .mul h₁ h₂
  | div =>
    cases hordered nofun nofun
    exact computes_arith .div h₁ h₂
  | _ => exact hcompare rfl

namespace Frame

/-- A call has its effect with its operands, which are on the stack. -/
theorem act_invoking (c : Call) : (fr.invoking c).act (w.map MiniJava.Val.encode)
      ⟨(c.operands.map fun o => (o.value w.this vars).encode).reverse, r⟩ =
    Locals.perform ⟨[], r⟩ (w.map MiniJava.Val.encode)
      (fr.classes.effect (c.effect w.this vars)) := by
  have hpops := fr.pops_invoking c
  have heffect : fr.classes.effect (c.effect w.this vars) = .invoke c.invocation
      ⟨fr.classes.owner c.target.type, c.method, fr.classes.methodType c.signature c.returnType⟩
      (c.operands.map fun o => (o.value w.this vars).encode) := by
    unfold Call.operands
    by_cases hstatic : c.invocation = .static <;>
      simp [ClassNames.effect, Call.effect, Call.callee, hstatic]
  unfold invoking at hpops ⊢
  unfold Instr.act
  simp [hpops, heffect, List.drop_of_length_le, List.take_of_length_le]

/-- **What is computed from the operands takes their place on the stack.** -/
theorem computes_computing (hw : Answers w) (hnodup : ((encoded w).labels code).Nodup) {rhs : Rhs}
    (hrhs : rhs.WellTyped (u.context m))
    (hputs : ∀ o ∈ rhs.operands, fr.Puts w vars r o) :
    (encoded w).Computes code (fr.computing n rhs)
      ⟨(rhs.operands.map fun o => (o.value w.this vars).encode).reverse, r⟩
      ((rhs.eval fr.classes.effect w vars).mapEnding MiniJava.Val.encode)
      fun v l' => v.HasType rhs.type ∧ l' = ⟨[v.encode], r⟩ := by
  cases rhs with
  | single value => exact .pure ⟨(hputs value List.mem_cons_self).1, rfl⟩
  | binary op left right =>
    obtain ⟨-, -, htype, hordered, -⟩ := hrhs
    have hleft := (hputs left List.mem_cons_self).1
    have hright := (hputs right mem_second).1
    rw [← htype] at hright
    rw [computing, ← htype, Bool.or_self]
    exact computes_operating hnodup hleft hright hordered
  | not operand =>
    obtain ⟨-, hbool⟩ := hrhs
    have hoperand := (hputs operand List.mem_cons_self).1
    rw [hbool] at hoperand
    exact computes_not hoperand
  | call c =>
    have hresult := fr.classes.result?_call c w.this vars
    rw [if_neg hrhs.2] at hresult
    exact computes_ask hw hresult (act_invoking c)
  | getField object field =>
    have hsort := fr.classes.sort_jtype field.type
    exact computes_ask (s := []) (e := .getField (fr.member object field)
      (object.value w.this vars).encode) hw (congrArg some hsort) rfl
  | arrayLoad array index =>
    exact computes_ask (s := []) (e := .loadElement (.ofType array.type.element)
      (vars array.name).encode (index.value w.this vars).encode) hw rfl rfl
  | arrayLength array =>
    exact computes_ask (s := []) (e := .arrayLength (vars array.name).encode) hw rfl rfl
  | newObject className => exact computes_ask (s := []) (e := .newObject _) hw rfl rfl
  | newArray size t =>
    have hsort : ElementSort.ofType t = .ref := by
      cases t <;> first | rfl | cases hrhs.2
    exact computes_ask (s := []) (e := .newArray (fr.classes.component t.element)
      (size.value w.this vars).encode) hw (congrArg some hsort.symm) rfl

end Frame

/-! ## Blocks -/

/-- An effect with a result has one. -/
theorem Answers.perform_eq (hw : Answers w) (he : e.result? = some σ) :
    w.perform e = do return some (← w.ask e) := by
  refine congrArg Act.mk (funext fun h => ?_)
  simp only [World.ask, World.perform, Act.need, Act.run_bind]
  cases hreply : w.reply h e with
  | returned x =>
    obtain ⟨v', rfl, -⟩ := hw h e σ he x hreply
    rfl
  | _ => rfl

namespace Frame

/-- The two codes go on in the same way, and each variable is in its register. -/
inductive Matches (fr : Frame) (m : Ir.Method) (this : MiniJava.Val) :
    Next Vars → Next Locals → Prop
  | fall {vars : Vars} {r : UInt16 → Val} (h : fr.Holds m this vars r) :
    Matches fr m this (.fall vars) (.fall ⟨[], r⟩)
  | jump {vars : Vars} {r : UInt16 → Val} (target : String) (h : fr.Holds m this vars r) :
    Matches fr m this (.jump target vars) (.jump target ⟨[], r⟩)

/-- Wherever this part stands, it goes on or ends as an act of three-address code does. -/
def Does (fr : Frame) (m : Ir.Method) (w : World Effect MiniJava.Val) (code p : List Instr)
    (l : Locals) (x : Act Effect MiniJava.Val (Next Vars)) : Prop :=
  ∀ rest, p ++ rest <:+ code → ∀ h,
    match x.run h with
    | (.ok next, h') => ∃ next', fr.Matches m w.this next next' ∧
      ((encoded w).machine code).Advances ⟨p ++ rest, l, h⟩ ((encoded w).resume code rest h' next')
    | (.error o, h') => ((encoded w).machine code).Advances ⟨p ++ rest, l, h⟩
      (.finished (o.map MiniJava.Val.encode) h')

variable {p q : List Instr} {x : Act Effect MiniJava.Val (Next Vars)}

/-- A part that computes the act and runs on. -/
theorem does_of_computes (hne : p ≠ []) (hp : (encoded w).Computes code p l
    (x.mapEnding MiniJava.Val.encode)
      fun next l' => ∃ vars, next = .fall vars ∧ l'.stack = [] ∧ fr.Holds m w.this vars l'.registers) :
    fr.Does m w code p l x := by
  intro rest hrest h
  have hrun := hp rest hrest h
  simp only [Act.mapEnding] at hrun
  split <;> rename_i heq
  · rw [heq] at hrun
    obtain ⟨⟨stack, r⟩, ⟨vars, rfl, rfl, hr⟩, hleads⟩ := hrun
    refine ⟨.fall ⟨[], r⟩, .fall hr, .of_leads hleads fun hsame => hne ?_⟩
    injection hsame with hsame
    injection hsame with hsame
    simpa using hsame
  · rw [heq] at hrun
    exact .of_leads hrun nofun

/-- One instruction that does all. -/
theorem does_single (hact : ∀ h, match x.run h with
    | (.ok next, h') => ∃ next', fr.Matches m w.this next next' ∧
      ((encoded w).act i l).run h = (.ok next', h')
    | (.error o, h') => ((encoded w).act i l).run h = (.error (o.map MiniJava.Val.encode), h')) :
    fr.Does m w code [i] l x := by
  intro rest hrest h
  have hrun := hact h
  split <;> rename_i heq
  · rw [heq] at hrun
    obtain ⟨next', hnext, hrun⟩ := hrun
    exact ⟨next', hnext, .single (Language.step_of_ok hrun)⟩
  · rw [heq] at hrun
    exact .single (Language.step_of_error hrun)

/-- First the operands are put on the stack. -/
theorem does_loading (hos : ∀ o ∈ os, fr.Puts w vars r o) (hp : fr.Does m w code p
    ⟨(os.map fun o => (o.value w.this vars).encode).reverse, r⟩ x) :
    fr.Does m w code (os.map fr.loading ++ p) ⟨[], r⟩ x := by
  intro rest hrest h
  rw [List.append_assoc] at hrest ⊢
  have hleads : ((encoded w).machine code).Leads ⟨os.map fr.loading ++ (p ++ rest), ⟨[], r⟩, h⟩
      (.running ⟨p ++ rest, ⟨(os.map fun o => (o.value w.this vars).encode).reverse ++ [], r⟩, h⟩) :=
    leads_map_loading hos
  rw [List.append_nil] at hleads
  have hrun := hp rest ((List.suffix_append _ _).trans hrest) h
  split <;> rename_i heq
  · rw [heq] at hrun
    obtain ⟨next', hnext, hadvances⟩ := hrun
    exact ⟨next', hnext, .trans hleads hadvances⟩
  · rw [heq] at hrun
    exact .trans hleads hrun

/-- An assignment computes a value and stores it. -/
theorem does_assign (hfr : fr.Suits u m) (hw : Answers w)
    (hnodup : ((encoded w).labels code).Nodup) (hr : fr.Holds m w.this vars r) {dest : Var}
    {value : Rhs} (hi : (Ir.Instr.assign dest value).WellTyped (u.context m)) (hdest : dest ∈ m.vars)
    (hputs : ∀ o ∈ value.operands, fr.Puts w vars r o) :
    fr.Does m w code (fr.computing n value ++ [fr.storing dest])
      ⟨(value.operands.map fun o => (o.value w.this vars).encode).reverse, r⟩
      ((Ir.Instr.assign dest value).act fr.classes.effect w vars) := by
  refine does_of_computes (by simp) ?_
  simp only [Ir.Instr.act, Act.mapEnding_bind, Act.mapEnding_pure]
  refine (computes_computing hw hnodup hi.1 hputs).bind ?_
  rintro v l' ⟨hv, rfl⟩
  have htype : v.HasType dest.type := by
    have hsort := hi.2.ofType_eq
    unfold MiniJava.Val.HasType at hv ⊢
    rwa [hsort]
  have hmoves := MiniJava.Val.moves_encode htype
  have hact : (encoded w).act (fr.storing dest) ⟨[v.encode], r⟩ = do
      let _ ← (pure (.fall (vars.set dest.name v)) : Act Effect Val (Next Vars))
      return .fall ⟨[], fun r' => if r' = fr.slot dest then v.encode else r r'⟩ := by
    exact if_pos hmoves
  refine .single_of_run hact fun next h h' hrun => ?_
  cases hrun
  exact ⟨_, rfl, rfl, hr.set hfr hdest htype⟩

/-- An instruction that has an effect, whose result is not needed. -/
theorem does_perform (he : e.result? = none) (hr : fr.Holds m w.this vars r)
    (hact : i.act (w.map MiniJava.Val.encode) l =
      Locals.perform ⟨[], r⟩ (w.map MiniJava.Val.encode) e) :
    fr.Does m w code [i] l (do
      let _ ← w.perform e
      return .fall vars) := by
  refine does_of_computes (by simp) ?_
  simp only [Act.mapEnding_bind, Act.mapEnding_pure]
  exact (computes_perform he hact).map fun _ l' hl' => ⟨vars, rfl, by rw [hl'], by rw [hl']; exact hr⟩

/-- A call whose result is not needed. -/
theorem does_call (hw : Answers w) (hr : fr.Holds m w.this vars r) (c : Call) :
    fr.Does m w code (if c.returnType = .void then [fr.invoking c] else [fr.invoking c, .pop])
      ⟨(c.operands.map fun o => (o.value w.this vars).encode).reverse, r⟩
      ((Ir.Instr.call c).act fr.classes.effect w vars) := by
  have hresult := fr.classes.result?_call c w.this vars
  by_cases hvoid : c.returnType = .void
  · rw [if_pos hvoid] at hresult ⊢
    exact does_perform hresult hr (act_invoking c)
  · rw [if_neg hvoid] at hresult ⊢
    refine does_of_computes (by simp) ?_
    simp only [Ir.Instr.act, hw.perform_eq hresult, Act.mapEnding_bind, Act.mapEnding_pure,
      bind_assoc, pure_bind]
    refine (computes_ask hw hresult (act_invoking c)).bind (q := [.pop]) ?_
    rintro v l' ⟨-, rfl⟩
    refine .single_of_run (g := fun _ => ⟨[], r⟩) rfl fun next h h' hrun => ?_
    cases hrun
    exact ⟨vars, rfl, rfl, hr⟩

/-- A jump on a truth value. -/
theorem does_branch (hr : fr.Holds m w.this vars r) {condition : Operand} {target : String}
    (hv : (condition.value w.this vars).HasSort .boolean) :
    fr.Does m w code [.ifTrue target] ⟨[(condition.value w.this vars).encode], r⟩
      ((Ir.Instr.branch condition target).act fr.classes.effect w vars) := by
  refine does_single fun h => ?_
  unfold Ir.Instr.act
  dsimp only
  generalize condition.value w.this vars = v at hv
  cases v with
  | bool b =>
    cases b with
    | true => exact ⟨.jump target ⟨[], r⟩, .jump target hr, rfl⟩
    | false => exact ⟨.fall ⟨[], r⟩, .fall hr, rfl⟩
  | cls name => rfl
  | _ => cases hv

/-- A return of a value. -/
theorem does_ret {value : Operand} (hv : (value.value w.this vars).HasType value.type) :
    fr.Does m w code [.retValue (.ofType value.type)] ⟨[(value.value w.this vars).encode], r⟩
      ((Ir.Instr.ret (some value)).act fr.classes.effect w vars) := by
  have hact : (encoded w).act (.retValue (.ofType value.type))
      ⟨[(value.value w.this vars).encode], r⟩ =
        .stop (.returned (some (value.value w.this vars).encode)) :=
    if_pos (MiniJava.Val.moves_encode hv)
  refine does_single fun h => ?_
  rw [hact]
  rfl

/-- **The block of an instruction does what the instruction does.** -/
theorem does_block (hfr : fr.Suits u m) (hw : Answers w)
    (hnodup : ((encoded w).labels code).Nodup) (hr : fr.Holds m w.this vars r) {i : Ir.Instr}
    (hi : i ∈ m.code) (hblock : i.hasBlock = true) :
    fr.Does m w code (fr.block n i) ⟨[], r⟩ (i.act fr.classes.effect w vars) := by
  have hwt := hfr.wellTyped.code i hi
  have hvars {v : Var} (hv : v ∈ i.vars) : v ∈ m.vars :=
    List.mem_append_right _ (List.mem_flatMap.mpr ⟨i, hi, hv⟩)
  have hputs : ∀ o ∈ i.operands, fr.Puts w vars r o := fun o ho =>
    hr.puts (i.wellTyped_of_mem_operands hwt ho) (i.isValue_of_mem_operands hblock ho)
      fun v hv => hvars (i.mem_vars_of_mem_operands ho hv)
  refine does_loading hputs ?_
  cases i with
  | assign dest value =>
    exact does_assign hfr hw hnodup hr hwt (hvars List.mem_cons_self) hputs
  | arrayStore array index value =>
    exact does_perform (e := .storeElement (.ofType array.type.element) (vars array.name).encode
      (index.value w.this vars).encode (value.value w.this vars).encode) rfl hr rfl
  | putField object field value =>
    exact does_perform (e := .putField (fr.member object field) (object.value w.this vars).encode
      (value.value w.this vars).encode) rfl hr rfl
  | call c => exact does_call hw hr c
  | goto target =>
    exact does_single fun h => ⟨.jump target ⟨[], r⟩, .jump target hr, rfl⟩
  | branch condition target =>
    have hcondition := (hputs condition List.mem_cons_self).1
    rw [hwt.2.1] at hcondition
    exact does_branch hr hcondition
  | ret value =>
    cases value with
    | none => exact does_single fun h => rfl
    | some value => exact does_ret (hputs value List.mem_cons_self).1
  | label name => exact does_single fun h => ⟨.fall ⟨[], r⟩, .fall hr, rfl⟩

end Frame

end Jvm

end MiniJava
