import MiniJava.Proofs.Emission.Need
import MiniJava.Proofs.Lowering.Typed

/-!
# Lighter code

Code is lighter than other code if it needs no more of the machine: no deeper stack, and no
variables but those that stand for variables of the other code. Which variables stand for which is a
relation `Γ` between names. Where all instructions of the other code have blocks, so do those of the
lighter code.

A second lowering `Lightens` a first one if it succeeds where that does, with a lighter result. The
two take their names from supplies that have nothing to do with each other. A new name of the second
stands for one that is new in the first, and for no other (`Lightens.close`).
-/

namespace MiniJava

open Ir

namespace Ir

/-! ## Operands and instructions -/

section Lighter

variable (Γ : String → String → Prop)

/-- Each of the second variables stands for one of the first. -/
def VarsLighter (vs vs' : List Var) : Prop := ∀ v' ∈ vs', ∃ v ∈ vs, Γ v.name v'.name

/-- The second operand is a literal of the type of the first, or stands for it. -/
inductive Operand.Lighter : Operand → Operand → Prop
  | literal {o : Operand} {t : IrType} (c : Int32) (ht : t = .int32 ∨ t = .boolean)
      (htype : o.type = t) : Lighter o (.literal c t)
  | var {v v' : Var} (hname : Γ v.name v'.name) (htype : v'.type = v.type) :
      Lighter (.var v) (.var v')
  | same {o : Operand} (h : o.vars = []) : Lighter o o

/-- The second call has lighter operands. -/
structure Call.Lighter (c c' : Call) : Prop where
  invocation : c'.invocation = c.invocation
  target : c.target.Lighter Γ c'.target
  arguments : List.Forall₂ (Operand.Lighter Γ) c.arguments c'.arguments
  returnType : c'.returnType = c.returnType

/-- The second operation needs no more, and its value has the same type. -/
structure Rhs.Lighter (r r' : Rhs) : Prop where
  vars : VarsLighter Γ r.vars r'.vars
  type : r'.type = r.type
  depth : r'.depth ≤ r.depth
  hasBlock : r.hasBlock = true → r'.hasBlock = true

/-- The second instruction needs no more. -/
structure Instr.Lighter (i i' : Instr) : Prop where
  vars : VarsLighter Γ i.vars i'.vars
  depth : i'.depth ≤ i.depth
  hasBlock : i.hasBlock = true → i'.hasBlock = true

/-- The instruction needs nothing. -/
structure Instr.IsFree (i : Instr) : Prop where
  vars : i.vars = []
  depth : i.depth = 0
  hasBlock : i.hasBlock = true

/-- Each of the second instructions needs nothing, or no more than one of the first. -/
def CodeLighter (p p' : Code) : Prop := ∀ i' ∈ p', i'.IsFree ∨ ∃ i ∈ p, i.Lighter Γ i'

end Lighter

variable {Γ : String → String → Prop}

theorem VarsLighter.append {vs vs' ws ws' : List Var} (h : VarsLighter Γ vs vs')
    (h' : VarsLighter Γ ws ws') : VarsLighter Γ (vs ++ ws) (vs' ++ ws') := by
  intro v' hv'
  rcases List.mem_append.mp hv' with hv' | hv'
  · obtain ⟨v, hv, hname⟩ := h v' hv'
    exact ⟨v, List.mem_append_left _ hv, hname⟩
  · obtain ⟨v, hv, hname⟩ := h' v' hv'
    exact ⟨v, List.mem_append_right _ hv, hname⟩

theorem VarsLighter.cons {v v' : Var} {vs vs' : List Var} (hv : Γ v.name v'.name)
    (h : VarsLighter Γ vs vs') : VarsLighter Γ (v :: vs) (v' :: vs') := by
  have hsingle : VarsLighter Γ [v] [v'] := fun w hw =>
    ⟨v, List.mem_cons_self, List.mem_singleton.mp hw ▸ hv⟩
  exact hsingle.append h

theorem VarsLighter.nil {vs : List Var} : VarsLighter Γ vs [] := fun _ hv => nomatch hv

/-! ### Operands -/

namespace Operand.Lighter

variable {o o' : Operand} {os os' : List Operand}

theorem vars (h : o.Lighter Γ o') : VarsLighter Γ o.vars o'.vars := by
  cases h with
  | literal => exact .nil
  | var hname => exact .cons hname .nil
  | same h => exact h ▸ .nil

theorem type (h : o.Lighter Γ o') : o'.type = o.type := by
  cases h with
  | literal c ht htype => exact htype.symm
  | var hname htype => exact htype
  | same => rfl

theorem isValue (h : o.Lighter Γ o') (ho : o.isValue = true) : o'.isValue = true := by
  cases h with
  | literal | var => rfl
  | same => exact ho

theorem isObject (h : o.Lighter Γ o') (ho : o.isObject = true) : o'.isObject = true := by
  obtain ⟨hclass, hvalue⟩ := Bool.and_eq_true_iff.mp ho
  refine Bool.and_eq_true_iff.mpr ⟨?_, h.isValue hvalue⟩
  rwa [h.type]

/-- A class is no literal. -/
theorem eq_classRef {name : String} (h : Lighter Γ (.classRef name) o') : o' = .classRef name := by
  cases h with
  | literal c ht htype => rcases ht with rfl | rfl <;> cases htype
  | same => rfl

theorem all_isValue (h : List.Forall₂ (Lighter Γ) os os') (hos : os.all Operand.isValue = true) :
    os'.all Operand.isValue = true := by
  rw [List.all_eq_true] at hos ⊢
  intro o' ho'
  obtain ⟨o, ho, hlighter⟩ := exists_of_forall₂ h ho'
  exact hlighter.isValue (hos o ho)

theorem flatMap_vars (h : List.Forall₂ (Lighter Γ) os os') :
    VarsLighter Γ (os.flatMap Operand.vars) (os'.flatMap Operand.vars) := by
  induction h with
  | nil => exact .nil
  | cons ho _ ih => exact ho.vars.append ih

end Operand.Lighter

/-! ### Calls -/

namespace Call.Lighter

variable {c c' : Call}

theorem vars (h : c.Lighter Γ c') : VarsLighter Γ c.vars c'.vars :=
  h.target.vars.append (Operand.Lighter.flatMap_vars h.arguments)

theorem length_operands (h : c.Lighter Γ c') : c'.operands.length = c.operands.length := by
  unfold Call.operands
  rw [List.length_append, List.length_append, h.arguments.length_eq, h.invocation]
  split <;> rfl

theorem hasReceiver (h : c.Lighter Γ c') (hc : c.hasReceiver = true) : c'.hasReceiver = true := by
  have htarget := h.target
  unfold Call.hasReceiver at hc ⊢
  rw [h.invocation]
  cases hkind : c.invocation with
  | static =>
    cases hname : c.target with
    | classRef name =>
      rw [hname] at htarget
      rw [htarget.eq_classRef]
    | _ => rw [hkind, hname] at hc; cases hc
  | virtual | special =>
    rw [hkind] at hc
    exact htarget.isObject hc

theorem hasBlock (h : c.Lighter Γ c') (hc : c.hasBlock = true) : c'.hasBlock = true := by
  obtain ⟨hreceiver, hvalues⟩ := Bool.and_eq_true_iff.mp hc
  exact Bool.and_eq_true_iff.mpr
    ⟨h.hasReceiver hreceiver, Operand.Lighter.all_isValue h.arguments hvalues⟩

end Call.Lighter

/-! ### Operations -/

theorem Rhs.one_le_depth (r : Rhs) : 1 ≤ r.depth := by
  unfold depth
  split
  · decide
  · exact Nat.le_max_left _ _

namespace Rhs.Lighter

variable {o o' u u' : Operand} {v v' : Var}

/-- An operation without variables. -/
theorem same {r : Rhs} (h : r.vars = []) : r.Lighter Γ r :=
  ⟨h ▸ .nil, rfl, Nat.le_refl _, id⟩

protected theorem single (h : o.Lighter Γ o') : (Rhs.single o).Lighter Γ (.single o') :=
  ⟨h.vars, h.type, Nat.le_refl _, h.isValue⟩

protected theorem binary (op : BinOp) (h : o.Lighter Γ o') (h' : u.Lighter Γ u') :
    (Rhs.binary op o u).Lighter Γ (.binary op o' u') := by
  refine ⟨h.vars.append h'.vars, rfl, Nat.le_refl _, fun hblock => ?_⟩
  obtain ⟨ho, hu⟩ := Bool.and_eq_true_iff.mp hblock
  exact Bool.and_eq_true_iff.mpr ⟨h.isValue ho, h'.isValue hu⟩

protected theorem not (h : o.Lighter Γ o') : (Rhs.not o).Lighter Γ (.not o') :=
  ⟨h.vars, rfl, Nat.le_refl _, h.isValue⟩

protected theorem call {c c' : Call} (h : c.Lighter Γ c') : (Rhs.call c).Lighter Γ (.call c') := by
  refine ⟨h.vars, h.returnType, ?_, h.hasBlock⟩
  change max 1 c'.operands.length ≤ max 1 c.operands.length
  rw [h.length_operands]

protected theorem arrayLoad (hv : Γ v.name v'.name) (htype : v'.type = v.type)
    (h : o.Lighter Γ o') : (Rhs.arrayLoad v o).Lighter Γ (.arrayLoad v' o') :=
  ⟨.cons hv h.vars, congrArg IrType.element htype, Nat.le_refl _, h.isValue⟩

protected theorem arrayLength (hv : Γ v.name v'.name) :
    (Rhs.arrayLength v).Lighter Γ (.arrayLength v') :=
  ⟨.cons hv .nil, rfl, Nat.le_refl _, id⟩

protected theorem newArray (t : IrType) (h : o.Lighter Γ o') :
    (Rhs.newArray o t).Lighter Γ (.newArray o' t) :=
  ⟨h.vars, rfl, Nat.le_refl _, h.isValue⟩

end Rhs.Lighter

/-! ### Instructions -/

namespace Instr

theorem isFree_goto (target : String) : (goto target).IsFree := ⟨rfl, rfl, rfl⟩

theorem isFree_label (name : String) : (label name).IsFree := ⟨rfl, rfl, rfl⟩

theorem isFree_ret : (ret none).IsFree := ⟨rfl, rfl, rfl⟩

namespace Lighter

variable {v v' : Var} {o o' u u' : Operand} {r r' : Rhs}

protected theorem assign (hv : Γ v.name v'.name) (h : r.Lighter Γ r') :
    (Instr.assign v r).Lighter Γ (.assign v' r') :=
  ⟨.cons hv h.vars, h.depth, h.hasBlock⟩

/-- No assignment to the variable needs less than that of a literal. -/
theorem assign_literal (hv : Γ v.name v'.name) (r : Rhs) (c : Int32) (t : IrType) :
    (Instr.assign v r).Lighter Γ (.assign v' (.single (.literal c t))) :=
  ⟨.cons hv .nil, r.one_le_depth, fun _ => rfl⟩

protected theorem arrayStore (hv : Γ v.name v'.name) (h : o.Lighter Γ o') (h' : u.Lighter Γ u') :
    (Instr.arrayStore v o u).Lighter Γ (.arrayStore v' o' u') := by
  refine ⟨.append (.cons hv h.vars) h'.vars, Nat.le_refl _, fun hblock => ?_⟩
  obtain ⟨ho, hu⟩ := Bool.and_eq_true_iff.mp hblock
  exact Bool.and_eq_true_iff.mpr ⟨h.isValue ho, h'.isValue hu⟩

protected theorem putField (field : Var) (h : o.Lighter Γ o') (h' : u.Lighter Γ u') :
    (Instr.putField o field u).Lighter Γ (.putField o' field u') := by
  refine ⟨h.vars.append h'.vars, Nat.le_refl _, fun hblock => ?_⟩
  obtain ⟨ho, hu⟩ := Bool.and_eq_true_iff.mp hblock
  exact Bool.and_eq_true_iff.mpr ⟨h.isObject ho, h'.isValue hu⟩

protected theorem call {c c' : Call} (h : c.Lighter Γ c') :
    (Instr.call c).Lighter Γ (.call c') := by
  refine ⟨h.vars, ?_, h.hasBlock⟩
  change max c'.operands.length _ ≤ max c.operands.length _
  rw [h.length_operands, h.returnType]

protected theorem branch {target target' : String} (h : o.Lighter Γ o') :
    (Instr.branch o target).Lighter Γ (.branch o' target') :=
  ⟨h.vars, Nat.le_refl _, h.isValue⟩

protected theorem ret (h : o.Lighter Γ o') :
    (Instr.ret (some o)).Lighter Γ (.ret (some o')) :=
  ⟨h.vars, Nat.le_refl _, h.isValue⟩

end Lighter

end Instr

/-! ### Code -/

namespace CodeLighter

variable {p p' q q' : Code} {i i' : Instr}

theorem nil : CodeLighter Γ p [] := fun _ hi => nomatch hi

theorem append (h : CodeLighter Γ p p') (h' : CodeLighter Γ q q') :
    CodeLighter Γ (p ++ q) (p' ++ q') := by
  intro i' hi'
  rcases List.mem_append.mp hi' with hi' | hi'
  · exact (h i' hi').imp_right fun ⟨i, hi, hlighter⟩ => ⟨i, List.mem_append_left _ hi, hlighter⟩
  · exact (h' i' hi').imp_right fun ⟨i, hi, hlighter⟩ => ⟨i, List.mem_append_right _ hi, hlighter⟩

theorem single (h : i.Lighter Γ i') : CodeLighter Γ [i] [i'] := by
  intro j hj
  obtain rfl := List.mem_singleton.mp hj
  exact .inr ⟨i, List.mem_cons_self, h⟩

theorem cons (h : i.Lighter Γ i') (h' : CodeLighter Γ p p') : CodeLighter Γ (i :: p) (i' :: p') :=
  (single h).append h'

/-- An instruction that needs nothing may be added. -/
theorem free (hi' : i'.IsFree) (h : CodeLighter Γ p p') : CodeLighter Γ p (i' :: p') :=
  List.forall_mem_cons.mpr ⟨.inl hi', h⟩

/-- The first code may be longer. -/
theorem of_subset (h : CodeLighter Γ p p') (hp : p ⊆ q) : CodeLighter Γ q p' :=
  fun i' hi' => (h i' hi').imp_right fun ⟨i, hi, hlighter⟩ => ⟨i, hp hi, hlighter⟩

theorem concat_free (hi' : i'.IsFree) (h : CodeLighter Γ p p') : CodeLighter Γ p (p' ++ [i']) :=
  List.forall_mem_append.mpr ⟨h, List.forall_mem_singleton.mpr (.inl hi')⟩

/-- Instructions that need nothing on both sides. -/
theorem free_cons (hi' : i'.IsFree) (h : CodeLighter Γ p p') :
    CodeLighter Γ (i :: p) (i' :: p') :=
  (h.of_subset (List.subset_cons_self i p)).free hi'

/-- A jump to where the code goes on needs nothing. -/
theorem closeWith (h : CodeLighter Γ p p') (target target' : String) :
    CodeLighter Γ (Scope.closeWith p target) (Scope.closeWith p' target') := by
  have hp : p ⊆ Scope.closeWith p target := by
    unfold Scope.closeWith
    split
    · exact List.Subset.refl p
    · exact List.subset_append_left p _
  refine CodeLighter.of_subset ?_ hp
  unfold Scope.closeWith
  split
  · exact h
  · exact h.concat_free (Instr.isFree_goto _)

theorem vars (h : CodeLighter Γ p p') :
    VarsLighter Γ (p.flatMap Instr.vars) (p'.flatMap Instr.vars) := by
  intro v' hv'
  obtain ⟨i', hi', hv'⟩ := List.mem_flatMap.mp hv'
  rcases h i' hi' with hfree | ⟨i, hi, hlighter⟩
  · rw [hfree.vars] at hv'
    cases hv'
  · obtain ⟨v, hv, hname⟩ := hlighter.vars v' hv'
    exact ⟨v, List.mem_flatMap.mpr ⟨i, hi, hv⟩, hname⟩

theorem depth (h : CodeLighter Γ p p') {d : Nat} (hp : ∀ i ∈ p, i.depth ≤ d) :
    ∀ i' ∈ p', i'.depth ≤ d := by
  intro i' hi'
  rcases h i' hi' with hfree | ⟨i, hi, hlighter⟩
  · exact hfree.depth ▸ Nat.zero_le d
  · exact hlighter.depth.trans (hp i hi)

theorem hasBlock (h : CodeLighter Γ p p') (hp : ∀ i ∈ p, i.hasBlock = true) :
    ∀ i' ∈ p', i'.hasBlock = true := by
  intro i' hi'
  rcases h i' hi' with hfree | ⟨i, hi, hlighter⟩
  · exact hfree.hasBlock
  · exact hlighter.hasBlock (hp i hi)

end CodeLighter

/-! ## Values -/

open Scope (retarget?)

/-- The second value is a literal of the type of the first, or both are computed by the last
instructions of their code, or neither is made by an assignment that could have another target. -/
inductive Value.Lighter (Γ : String → String → Prop) : Value → Value → Prop
  | literal {v : Value} {t : IrType} (c : Int32) (ht : t = .int32 ∨ t = .boolean)
      (htype : v.operand.type = t) : Lighter Γ v ⟨.literal c t, []⟩
  | computed {p p' : Code} {x x' : Var} {r r' : Rhs} (hcode : CodeLighter Γ p p')
      (hr : r.Lighter Γ r') (hx : Γ x.name x'.name) (htype : x'.type = x.type) :
      Lighter Γ ⟨.var x, p ++ [.assign x r]⟩ ⟨.var x', p' ++ [.assign x' r']⟩
  | other {v v' : Value} (hcode : CodeLighter Γ v.code v'.code)
      (hoperand : v.operand.Lighter Γ v'.operand) (hv : ∀ dest, retarget? dest v = none)
      (hv' : ∀ dest, retarget? dest v' = none) : Lighter Γ v v'

namespace Value.Lighter

variable {v v' : Value}

theorem operand (h : v.Lighter Γ v') : v.operand.Lighter Γ v'.operand := by
  cases h with
  | literal c ht htype => exact .literal c ht htype
  | computed hcode hr hx htype => exact .var hx htype
  | other hcode hoperand => exact hoperand

theorem code (h : v.Lighter Γ v') : CodeLighter Γ v.code v'.code := by
  cases h with
  | literal => exact .nil
  | computed hcode hr hx => exact hcode.append (.single (.assign hx hr))
  | other hcode => exact hcode

/-- A value without code of its own. -/
theorem of_operand {o o' : Operand} (h : o.Lighter Γ o') : Lighter Γ ⟨o, []⟩ ⟨o', []⟩ :=
  .other .nil h (fun _ => rfl) fun _ => rfl

/-- **An assignment of the value needs no more**, whether or not it is computed right into the
variable. -/
theorem assigned (h : v.Lighter Γ v') {dest : Var} (hdest : Γ dest.name dest.name) :
    CodeLighter Γ ((retarget? dest v).getD (v.code ++ [.assign dest (.single v.operand)]))
      ((retarget? dest v').getD (v'.code ++ [.assign dest (.single v'.operand)])) := by
  cases h with
  | literal c ht =>
    -- Whatever the first code is, it ends by assigning to the variable.
    have hassign : ∃ r, Instr.assign dest r ∈
        (retarget? dest v).getD (v.code ++ [.assign dest (.single v.operand)]) := by
      cases hretarget : retarget? dest v with
      | none => exact ⟨_, List.mem_append_right _ List.mem_cons_self⟩
      | some code =>
        obtain ⟨p, x, r, -, -, rfl⟩ := Scope.retarget?_eq_some hretarget
        exact ⟨r, List.mem_append_right _ List.mem_cons_self⟩
    obtain ⟨r, hr⟩ := hassign
    exact (CodeLighter.single (.assign_literal hdest r c _)).of_subset fun i hi =>
      List.mem_singleton.mp hi ▸ hr
  | computed hcode hr =>
    have hretarget {p : Code} {x : Var} {r : Rhs} :
        retarget? dest ⟨.var x, p ++ [.assign x r]⟩ = some (p ++ [.assign dest r]) := by
      simp [retarget?]
    rw [hretarget, hretarget]
    exact hcode.append (.single (.assign hdest hr))
  | other hcode hoperand hv hv' =>
    rw [hv, hv']
    exact hcode.append (.single (.assign hdest (.single hoperand)))

end Value.Lighter

/-! ## Lowerings -/

namespace Lower

variable {α β α' β' : Type} {r : List String} {P P' : (String → String → Prop) → α → α' → Prop}
  {Q : (String → String → Prop) → β → β' → Prop} {x : Lower α} {x' : Lower α'}

/-- Where the first lowering succeeds, from a supply that reserves these names, so does the second,
from any supply. What they return fulfils a condition on the variables that stand for each other, if
the reserved ones stand for themselves and some new ones of the second for those that are new in
the first. -/
def Lightens (r : List String) (x : Lower α) (x' : Lower α')
    (P : (String → String → Prop) → α → α' → Prop) : Prop :=
  ∀ s s' a s₁, s.reserved = r → x.run s = .ok (a, s₁) → ∃ a' s₁', x'.run s' = .ok (a', s₁') ∧
    s'.Precedes s₁' ∧ ∃ pairs : List (Var × String), s.Declares s₁ (pairs.map Prod.fst) ∧
      ∀ Γ : String → String → Prop, (∀ y ∈ r, Γ y y) → (∀ p ∈ pairs, Γ p.1.name p.2) → P Γ a a'

namespace Lightens

theorem mono (hx : Lightens r x x' P) (h : ∀ Γ a a', P Γ a a' → P' Γ a a') :
    Lightens r x x' P' := by
  intro s s' a s₁ hs ha
  obtain ⟨a', s₁', ha', hprecedes, pairs, hpairs, hP⟩ := hx s s' a s₁ hs ha
  exact ⟨a', s₁', ha', hprecedes, pairs, hpairs, fun Γ hr hΓ => h Γ a a' (hP Γ hr hΓ)⟩

/-- The second lowering takes nothing from the supply. -/
theorem pure_right {a' : α'}
    (h : ∀ s a s₁, s.reserved = r → x.run s = .ok (a, s₁) →
      s.Precedes s₁ ∧ ∀ Γ : String → String → Prop, (∀ y ∈ r, Γ y y) → P Γ a a') :
    Lightens r x (pure a') P := by
  intro s s' a s₁ hs ha
  obtain ⟨hprecedes, hP⟩ := h s a s₁ hs ha
  exact ⟨a', s', rfl, .refl s', [], .of_precedes hprecedes, fun Γ hr _ => hP Γ hr⟩

protected theorem pure {a : α} {a' : α'}
    (h : ∀ Γ : String → String → Prop, (∀ y ∈ r, Γ y y) → P Γ a a') :
    Lightens r (pure a) (pure a') P := by
  refine .pure_right fun s b s₁ _ hb => ?_
  obtain ⟨rfl, rfl⟩ := run_pure_eq_ok.mp hb
  exact ⟨.refl _, h⟩

protected theorem throw {e : LoweringError} : Lightens r (throw e : Lower α) x' P :=
  fun _ _ _ _ _ ha => absurd ha run_throw_ne_ok

/-- What follows may depend on what the first lowerings return, and on what is true of that
whichever variables stand for each other. -/
protected theorem bind {f : α → Lower β} {f' : α' → Lower β'} (hx : Lightens r x x' P)
    (hf : ∀ a a', P (fun _ _ => True) a a' →
      Lightens r (f a) (f' a') fun Γ b b' => P Γ a a' → Q Γ b b') :
    Lightens r (x >>= f) (x' >>= f') Q := by
  intro s s' b s₂ hs hb
  obtain ⟨a, s₁, ha, hb⟩ := run_bind_eq_ok.mp hb
  obtain ⟨a', s₁', ha', hprecedes, pairs, hpairs, hP⟩ := hx s s' a s₁ hs ha
  have htrue := hP (fun _ _ => True) (fun _ _ => trivial) fun _ _ => trivial
  have hs₁ : s₁.reserved = r := hpairs.precedes.reserved.trans hs
  obtain ⟨b', s₂', hb', hprecedes', pairs', hpairs', hQ⟩ := hf a a' htrue s₁ s₁' b s₂ hs₁ hb
  refine ⟨b', s₂', run_bind_eq_ok.mpr ⟨a', s₁', ha', hb'⟩, hprecedes.trans hprecedes',
    pairs ++ pairs', ?_, fun Γ hr hΓ => ?_⟩
  · rw [List.map_append]
    exact hpairs.append hpairs'
  · obtain ⟨hΓ, hΓ'⟩ := List.forall_mem_append.mp hΓ
    exact hQ Γ hr hΓ' (hP Γ hr hΓ)

/-- What the first lowering yields whatever the supply is. -/
theorem and_yields {R : α → Prop} {E : LoweringError → Prop} (hx : Lightens r x x' P)
    (h : Yields x R E) : Lightens r x x' fun Γ a a' => P Γ a a' ∧ R a := by
  intro s s' a s₁ hs ha
  obtain ⟨a', s₁', ha', hprecedes, pairs, hpairs, hP⟩ := hx s s' a s₁ hs ha
  exact ⟨a', s₁', ha', hprecedes, pairs, hpairs, fun Γ hr hΓ => ⟨hP Γ hr hΓ, h.of_run ha⟩⟩

theorem temp (t : IrType) : Lightens r (temp t) (temp t) fun Γ v v' =>
    Γ v.name v'.name ∧ v.type = t ∧ v'.type = t := by
  intro s s' v s₁ _ hv
  obtain ⟨rfl, rfl⟩ := temp_eq_ok hv
  exact ⟨⟨s'.temp.1, t⟩, s'.temp.2, rfl, .temp s', [(⟨s.temp.1, t⟩, s'.temp.1)], .temp s t,
    fun Γ _ hΓ => ⟨hΓ _ List.mem_cons_self, rfl, rfl⟩⟩

theorem label (k : LabelKind) : Lightens r (label k) (label k) fun _ _ _ => True := by
  intro s s' n s₁ _ hn
  obtain ⟨rfl, rfl⟩ := label_eq_ok hn
  exact ⟨(s'.label k).1, (s'.label k).2, rfl, (Supply.Issues.label s' k).precedes, [],
    .of_precedes (Supply.Issues.label s k).precedes, fun _ _ _ => trivial⟩

protected theorem mapM {f : α → Lower β} {f' : α' → Lower β'} {R : β → β' → Prop} {as : List α}
    {as' : List α'} (h : List.Forall₂ (fun a a' => Lightens r (f a) (f' a') fun _ => R) as as') :
    Lightens r (as.mapM f) (as'.mapM f') fun _ => List.Forall₂ R := by
  induction h with
  | nil => exact .pure fun _ _ => .nil
  | cons ha _ ih =>
    rw [List.mapM_cons, List.mapM_cons]
    exact ha.bind fun b b' _ => ih.bind fun bs bs' _ => .pure fun _ _ hbs hb => .cons hb hbs

/-! ### Results without names -/

variable {R : α → α' → Prop}

/-- **Of the variables in the second result no two stand for the same one.** What this entails of
the results no longer depends on what the variables stand for. -/
theorem close (hx : Lightens r x x' P)
    (h : ∀ (Γ : String → String → Prop) (a : α) (a' : α'), (∀ y ∈ r, Γ y y) →
      (∀ z x y, Γ z x → Γ z y → x = y) → P Γ a a' → R a a') :
    Lightens r x x' fun _ => R := by
  intro s s' a s₁ hs ha
  obtain ⟨a', s₁', ha', hprecedes, pairs, hpairs, hP⟩ := hx s s' a s₁ hs ha
  let Γ (x y : String) : Prop := x ∈ r ∧ x = y ∨ ∃ p ∈ pairs, p.1.name = x ∧ p.2 = y
  have hr : ∀ y ∈ r, Γ y y := fun y hy => .inl ⟨hy, rfl⟩
  have hfresh : ∀ p ∈ pairs, p.1.name ∉ r := fun p hp =>
    hs ▸ (hpairs.fresh p.1 (List.mem_map_of_mem hp)).1.1
  have hnodup : (pairs.map fun p => p.1.name).Nodup := by
    have h := hpairs.nodup
    rwa [List.map_map] at h
  refine ⟨a', s₁', ha', hprecedes, pairs, hpairs, fun _ _ _ => h Γ a a' hr ?_ ?_⟩
  · rintro z x y (⟨hz, rfl⟩ | ⟨p, hp, rfl, rfl⟩) (⟨hz', rfl⟩ | ⟨q, hq, hname, rfl⟩)
    · rfl
    · exact absurd (hname ▸ hz) (hfresh q hq)
    · exact absurd hz' (hfresh p hp)
    · rw [List.inj_on_of_nodup_map hnodup hp hq hname.symm]
  · exact hP Γ hr fun p hp => .inr ⟨p, hp, rfl, rfl⟩

/-- A third lowering is compared with the first by way of the second. -/
theorem trans {α'' : Type} {x'' : Lower α''} {R' : α' → α'' → Prop}
    (h : Lightens r x x' fun _ => R) (h' : Lightens r x' x'' fun _ => R') :
    Lightens r x x'' fun _ a a'' => ∃ a', R a a' ∧ R' a' a'' := by
  intro s s'' a s₁ hs ha
  obtain ⟨a', s₁', ha', -, pairs, hpairs, hR⟩ := h s s a s₁ hs ha
  obtain ⟨a'', s₁'', ha'', hprecedes, pairs', -, hR'⟩ := h' s s'' a' s₁' hs ha'
  refine ⟨a'', s₁'', ha'', hprecedes, pairs, hpairs, fun _ _ _ => ⟨a', ?_, ?_⟩⟩
  · exact hR (fun _ _ => True) (fun _ _ => trivial) fun _ _ => trivial
  · exact hR' (fun _ _ => True) (fun _ _ => trivial) fun _ _ => trivial

theorem exists_run (h : Lightens r x x' fun _ => R) {s s₁ : Supply} {a : α} (hs : s.reserved = r)
    (ha : x.run s = .ok (a, s₁)) (s' : Supply) :
    ∃ a' s₁', x'.run s' = .ok (a', s₁') ∧ R a a' := by
  obtain ⟨a', s₁', ha', -, pairs, -, hR⟩ := h s s' a s₁ hs ha
  exact ⟨a', s₁', ha', hR (fun _ _ => True) (fun _ _ => trivial) fun _ _ => trivial⟩

end Lightens

/-! ### Values -/

/-- The second lowering gives a lighter value. -/
abbrev LightensValue (r : List String) (y y' : Lower Value) : Prop :=
  Lightens r y y' Value.Lighter

variable {ys ys' : List (Lower Value)} {y y' z z' : Lower Value}

theorem assignTemp_lightens {p p' : Code} {u u' : Rhs} (htype : u'.type = u.type) :
    Lightens r (assignTemp p u) (assignTemp p' u') fun Γ v v' =>
      CodeLighter Γ p p' → u.Lighter Γ u' → v.Lighter Γ v' := by
  unfold assignTemp
  rw [htype]
  refine (Lightens.temp u.type).bind fun dest dest' _ => .pure fun Γ _ ⟨hname, ht, ht'⟩ hp hu => ?_
  exact .computed hp hu hname (ht'.trans ht.symm)

/-- Literals are no arrays, so an array is a variable on both sides or on none. -/
theorem toVar_lightens {v v' : Value} (hv : v.Lighter (fun _ _ => True) v')
    (harray : v.operand.type.isArray = true) : Lightens r (toVar v) (toVar v') fun Γ a a' =>
      v.Lighter Γ v' → CodeLighter Γ a.2 a'.2 ∧ Γ a.1.name a'.1.name ∧ a'.1.type = a.1.type := by
  obtain ⟨o, p⟩ := v
  obtain ⟨o', p'⟩ := v'
  have hoperand : o.Lighter (fun _ _ => True) o' := hv.operand
  clear hv
  cases hoperand with
  | literal c ht htype =>
    rw [htype] at harray
    rcases ht with rfl | rfl <;> cases harray
  | var =>
    refine .pure fun Γ _ hlighter => ⟨hlighter.code, ?_⟩
    cases hlighter.operand with
    | var hname htype => exact ⟨hname, htype⟩
    | same h => cases h
  | same h =>
    have htemp : Lightens r
        (do let dest ← temp o.type; return (dest, p ++ [.assign dest (.single o)]))
        (do let dest ← temp o.type; return (dest, p' ++ [.assign dest (.single o)]))
        fun Γ a a' => Value.Lighter Γ ⟨o, p⟩ ⟨o, p'⟩ →
          CodeLighter Γ a.2 a'.2 ∧ Γ a.1.name a'.1.name ∧ a'.1.type = a.1.type := by
      refine (Lightens.temp o.type).bind fun dest dest' _ => .pure
        fun Γ _ ⟨hname, ht, ht'⟩ hlighter => ⟨?_, hname, ht'.trans ht.symm⟩
      exact hlighter.code.append (.single (.assign hname (.single (.same h))))
    cases o with
    | var => cases h
    | _ => exact htemp

theorem inOrder_lightens (h : List.Forall₂ (LightensValue r) ys ys') :
    Lightens r (inOrder ys) (inOrder ys') fun Γ a a' =>
      List.Forall₂ (Operand.Lighter Γ) a.1 a'.1 ∧ CodeLighter Γ a.2 a'.2 := by
  induction h with
  | nil => exact .pure fun _ _ => ⟨.nil, .nil⟩
  | cons hx _ ih =>
    refine hx.bind fun v v' _ => ih.bind fun (os, p) (os', p') _ => .pure fun Γ _ hrest hv => ?_
    exact ⟨.cons hv.operand hrest.1, hv.code.append hrest.2⟩

/-- The code ends by storing an element of an array. -/
def EndsWithStore (p : Code) : Prop := ∃ q a i v, p = q ++ [.arrayStore a i v]

theorem EndsWithStore.retarget?_eq_none {p : Code} (h : EndsWithStore p) (o : Operand)
    (i : Instr) (dest : Var) : Scope.retarget? dest ⟨o, i :: p⟩ = none := by
  obtain ⟨q, a, j, v, rfl⟩ := h
  rw [Scope.retarget?, ← List.cons_append, List.getLast?_concat]

theorem EndsWithStore.append {p : Code} (q : Code) (a : Var) (i v : Operand)
    (h : p = [] ∨ EndsWithStore p) : EndsWithStore (q ++ .arrayStore a i v :: p) := by
  rcases h with rfl | ⟨q', a', i', v', rfl⟩
  · exact ⟨q, a, i, v, rfl⟩
  · exact ⟨q ++ .arrayStore a i v :: q', a', i', v', by simp⟩

theorem storeFrom_lightens (array array' : Var) (index : Nat)
    (h : List.Forall₂ (LightensValue r) ys ys') :
    Lightens r (storeFrom array index ys) (storeFrom array' index ys') fun Γ p p' =>
      (Γ array.name array'.name → CodeLighter Γ p p') ∧
        (p = [] ∧ p' = [] ∨ EndsWithStore p ∧ EndsWithStore p') := by
  induction h generalizing index with
  | nil => exact .pure fun _ _ => ⟨fun _ => .nil, .inl ⟨rfl, rfl⟩⟩
  | cons hx _ ih =>
    refine hx.bind fun v v' _ => (ih (index + 1)).bind fun p p' _ => .pure fun Γ _ hrest hv => ?_
    obtain ⟨hcode, hends⟩ := hrest
    refine ⟨fun harray => ?_, .inr ⟨.append _ _ _ _ ?_, .append _ _ _ _ ?_⟩⟩
    · exact hv.code.append (.cons (.arrayStore harray (.same rfl) hv.operand) (hcode harray))
    · exact hends.imp And.left And.left
    · exact hends.imp And.right And.right

/-- An array of no elements is made by one assignment, and any other stored into at the end. -/
theorem packArray_lightens (t : IrType) (h : List.Forall₂ (LightensValue r) ys ys') :
    Lightens r (packArray t ys) (packArray t ys') fun Γ a a' =>
      Value.Lighter Γ ⟨.var a.1, a.2⟩ ⟨.var a'.1, a'.2⟩ := by
  refine (Lightens.temp t).bind fun array array' _ => (storeFrom_lightens array array' 0 h).bind
    fun p p' _ => .pure fun Γ _ ⟨hcode, hends⟩ ⟨hname, ht, ht'⟩ => ?_
  have hnew : (Rhs.newArray (.int (.ofNat ys.length)) t).Lighter Γ
      (.newArray (.int (.ofNat ys'.length)) t) := by
    rw [h.length_eq]
    exact .same rfl
  have htype := ht'.trans ht.symm
  rcases hends with ⟨rfl, rfl⟩ | ⟨hends, hends'⟩
  · have hassign : Value.Lighter Γ ⟨.var array, [] ++ [.assign array (.newArray _ t)]⟩
        ⟨.var array', [] ++ [.assign array' (.newArray _ t)]⟩ :=
      .computed .nil hnew hname htype
    exact hassign
  · refine .other (.cons (.assign hname hnew) (hcode hname)) (.var hname htype) ?_ ?_
    · exact hends.retarget?_eq_none _ _
    · exact hends'.retarget?_eq_none _ _

/-! ### Operators -/

theorem logical_lightens {k : LabelKind} {code : Nat → Var → Value → Value → Code}
    (hy : LightensValue r y y') (hz : LightensValue r z z')
    (hcode : ∀ Γ n n' dest dest' a a' b b', Γ dest.name dest'.name → a.Lighter Γ a' →
      b.Lighter Γ b' → CodeLighter Γ (code n dest a b) (code n' dest' a' b'))
    (hlast : ∀ n dest a b, ∃ l, (code n dest a b).getLast? = some (.label l)) :
    LightensValue r
      (do
        let n ← label k
        let result ← temp .boolean
        let a ← y
        let b ← z
        return ⟨.var result, code n result a b⟩)
      (do
        let n ← label k
        let result ← temp .boolean
        let a ← y'
        let b ← z'
        return ⟨.var result, code n result a b⟩) := by
  have hnone (n : Nat) (result : Var) (a b : Value) (dest : Var) :
      Scope.retarget? dest ⟨.var result, code n result a b⟩ = none := by
    obtain ⟨l, hl⟩ := hlast n result a b
    rw [Scope.retarget?, hl]
  refine (Lightens.label k).bind fun n n' _ => (Lightens.temp .boolean).bind fun dest dest' _ => ?_
  refine hy.bind fun a a' _ => hz.bind fun b b' _ => .pure ?_
  intro Γ _ hb ha ⟨hname, ht, ht'⟩ _
  exact .other (hcode Γ n n' dest dest' a a' b b' hname ha hb) (.var hname (ht'.trans ht.symm))
    (hnone _ _ _ _) (hnone _ _ _ _)

theorem conjunction_lightens (hy : LightensValue r y y') (hz : LightensValue r z z') :
    LightensValue r (conjunction y z) (conjunction y' z') := by
  refine logical_lightens hy hz (fun Γ n n' dest dest' a a' b b' hdest ha hb => ?_)
    fun n dest a b => ⟨_, by rw [List.getLast?_append]; rfl⟩
  have hbranch (l l' : String) : (Instr.branch a.operand l).Lighter Γ (.branch a'.operand l') :=
    .branch ha.operand
  have hfalse : (Instr.assign dest (.single (.bool false))).Lighter Γ
      (.assign dest' (.single (.bool false))) :=
    .assign hdest (.same rfl)
  refine ((ha.code.append ?_).append hb.code).append ?_
  · exact .cons (hbranch _ _) (.cons hfalse (.free_cons (Instr.isFree_goto _)
      (.free_cons (Instr.isFree_label _) .nil)))
  · exact .cons (.assign hdest (.single hb.operand)) (.free_cons (Instr.isFree_label _) .nil)

theorem disjunction_lightens (hy : LightensValue r y y') (hz : LightensValue r z z') :
    LightensValue r (disjunction y z) (disjunction y' z') := by
  refine logical_lightens hy hz (fun Γ n n' dest dest' a a' b b' hdest ha hb => ?_)
    fun n dest a b => ⟨_, by rw [List.getLast?_append]; rfl⟩
  have htrue : (Instr.assign dest (.single (.bool true))).Lighter Γ
      (.assign dest' (.single (.bool true))) :=
    .assign hdest (.same rfl)
  refine ((ha.code.append (.single (.branch ha.operand))).append hb.code).append ?_
  exact .cons (.assign hdest (.single hb.operand)) (.free_cons (Instr.isFree_goto _)
    (.free_cons (Instr.isFree_label _) (.cons htrue (.free_cons (Instr.isFree_label _) .nil))))

/-- **A binary operator on lighter values is lighter.** -/
theorem binary_lightens (op : BinaryOp) (hy : LightensValue r y y') (hz : LightensValue r z z') :
    LightensValue r (binary op y z) (binary op y' z') := by
  have hvalue (op' : BinOp) : LightensValue r
      (do
        let a ← y
        let b ← z
        assignTemp (a.code ++ b.code) (.binary op' a.operand b.operand))
      (do
        let a ← y'
        let b ← z'
        assignTemp (a.code ++ b.code) (.binary op' a.operand b.operand)) := by
    refine hy.bind fun a a' _ => hz.bind fun b b' _ =>
      .mono (assignTemp_lightens (Eq.refl op'.resultType)) fun Γ v v' hv hb ha => ?_
    exact hv (ha.code.append hb.code) (.binary op' ha.operand hb.operand)
  cases op with
  | and => exact conjunction_lightens hy hz
  | or => exact disjunction_lightens hy hz
  | _ => exact hvalue _

end Lower

end Ir

end MiniJava
