import MiniJava.Jvm.Registers
import MiniJava.Proofs.Declared
import MiniJava.Proofs.Lowering.ExprType
import MiniJava.Proofs.Lowering.Issued

/-!
# The types in lowered code

Three-address code carries types, and the three-address code of an accepted program is well-typed:
arithmetic works on integers, comparisons on two values of one type, conditions are truth values, only
arrays have elements, which integers count, variables, fields, elements of arrays and parameters take
values that fit them, and there is no object in a static method. Each variable of a method has one
type.

A lowering `Gives` something if what it returns fulfils a condition on the variables that there
are, whichever these are as long as the new temporary variables and the known ones are among them.
So what is said of a part still holds where more variables are used.
-/

namespace MiniJava

open Ir

namespace Ir

/-! ## Well-typed code -/

/-- The values are arrays. -/
def IrType.isArray : IrType → Bool
  | array _ => true
  | _ => false

/-- What has the first type takes values of the second: the types are equal, or both are those of
references, and both or neither those of arrays. -/
def IrType.Fits (t u : IrType) : Prop :=
  t = u ∨ t.isReference = true ∧ u.isReference = true ∧ t.isArray = u.isArray

/-- The name of a label that some construct needs. -/
def IsLabel (l : String) : Prop := ∃ k, ∃ p ∈ LabelKind.stems k, ∃ n : Nat, l = p ++ toString n

theorem LabelKind.isLabel {k : LabelKind} {p : String} (hp : p ∈ k.stems) (n : Nat) :
    IsLabel (p ++ toString n) :=
  ⟨k, p, hp, n, rfl⟩

/-- What the code of a method may refer to. -/
structure Context where
  isStatic : Bool
  className : String
  fields : List Var
  /-- The types of the parameters of a method that the class declares. -/
  params? : String → Option (List IrType)

/-- What the code of a method of the class may refer to. -/
def ClassUnit.context (u : ClassUnit) (m : Method) : Context where
  isStatic := m.isStatic
  className := u.name
  fields := u.fields
  params? name := (u.methods.find? (·.name == name)).map fun m => m.params.map Var.type

section WellTyped

variable (ctx : Context)

/-- A literal is an integer or a truth value, and only an instance method has an object. -/
def Operand.WellTyped : Operand → Prop
  | literal n t => t = .int32 ∨ t = .boolean ∧ (n = 0 ∨ n = 1)
  | this _ => ctx.isStatic = false
  | var _ | classRef _ => True

/-- The operands are well-typed, the receiver is an object, and the arguments for a method that the
class declares fit its parameters. -/
structure Call.WellTyped (c : Call) : Prop where
  operands : ∀ o ∈ c.target :: c.arguments, o.WellTyped ctx
  receiver : c.invocation = .virtual → c.target.type.isReference = true
  arguments : c.invocation ≠ .special → c.target.type = .classRef ctx.className →
    ∀ ts, ctx.params? c.method = some ts →
      List.Forall₂ IrType.Fits ts (c.arguments.map Operand.type)

/-- The operation takes its operands, and leaves a value. -/
def Rhs.WellTyped : Rhs → Prop
  | single o => o.WellTyped ctx
  | binary op l r =>
    l.WellTyped ctx ∧ r.WellTyped ctx ∧ l.type = r.type ∧
      (op ≠ .eq → op ≠ .ne → l.type = .int32) ∧ l.type.isArray = false ∧ l.type ≠ .void
  | not o => o.WellTyped ctx ∧ o.type = .boolean
  | call c => c.WellTyped ctx ∧ c.returnType ≠ .void
  | getField o _ => o.WellTyped ctx
  | arrayLoad a i => i.WellTyped ctx ∧ a.type.isArray = true ∧ i.type = .int32
  | arrayLength a => a.type.isArray = true
  | newObject _ => True
  | newArray size t => size.WellTyped ctx ∧ t.isArray = true

/-- The instruction takes its operands, and its labels are those of constructs. -/
def Instr.WellTyped : Instr → Prop
  | assign dest value => value.WellTyped ctx ∧ dest.type.Fits value.type
  | arrayStore a i v =>
    i.WellTyped ctx ∧ v.WellTyped ctx ∧ a.type.isArray = true ∧ i.type = .int32 ∧
      a.type.element.Fits v.type
  | putField o f v => o.WellTyped ctx ∧ v.WellTyped ctx ∧ f ∈ ctx.fields ∧ f.type.Fits v.type
  | call c => c.WellTyped ctx
  | branch c target => c.WellTyped ctx ∧ c.type = .boolean ∧ IsLabel target
  | ret (some v) => v.WellTyped ctx
  | ret none => True
  | goto target | label target => IsLabel target

end WellTyped

/-- The instructions of a method of the class are well-typed, each variable has one type, and the
labels differ. -/
structure Method.WellTyped (u : ClassUnit) (m : Method) : Prop where
  code : ∀ i ∈ m.code, i.WellTyped (u.context m)
  consistent : ∃ types : String → IrType, ∀ v ∈ m.vars, v.type = types v.name
  labels : (labels m.code).Nodup

/-! ### Among some variables -/

section Among

variable (ctx : Context) (Γ : Var → Prop)

/-- The operand is well-typed and works on these variables. -/
def Operand.In (o : Operand) : Prop := o.WellTyped ctx ∧ ∀ v ∈ o.vars, Γ v

/-- The operation is well-typed and works on these variables. -/
def Rhs.In (r : Rhs) : Prop := r.WellTyped ctx ∧ ∀ v ∈ r.vars, Γ v

/-- The instruction is well-typed and works on these variables. -/
def Instr.In (i : Instr) : Prop := i.WellTyped ctx ∧ ∀ v ∈ i.vars, Γ v

/-- The instructions are well-typed and work on these variables. -/
def CodeIn (code : Code) : Prop := ∀ i ∈ code, i.In ctx Γ

end Among

variable {ctx : Context} {Γ : Var → Prop} {p q : Code} {i : Instr}

@[simp] theorem codeIn_nil : CodeIn ctx Γ [] := fun _ hi => nomatch hi

@[simp] theorem codeIn_append :
    CodeIn ctx Γ (p ++ q) ↔ CodeIn ctx Γ p ∧ CodeIn ctx Γ q :=
  List.forall_mem_append

@[simp] theorem codeIn_cons :
    CodeIn ctx Γ (i :: p) ↔ i.In ctx Γ ∧ CodeIn ctx Γ p :=
  List.forall_mem_cons

theorem Operand.in_var {v : Var} (h : Γ v) : (var v).In ctx Γ :=
  ⟨trivial, List.forall_mem_singleton.mpr h⟩

theorem Operand.in_bool (b : Bool) : (bool b).In ctx Γ :=
  ⟨.inr ⟨rfl, by cases b <;> simp⟩, List.forall_mem_nil _⟩

/-- The call is well-typed and works on these variables. -/
def Call.In (ctx : Context) (Γ : Var → Prop) (c : Call) : Prop :=
  c.WellTyped ctx ∧ ∀ v ∈ c.vars, Γ v

theorem Call.in_of_operands {c : Call} (h : ∀ o ∈ c.target :: c.arguments, o.In ctx Γ)
    (hreceiver : c.invocation = .virtual → c.target.type.isReference = true)
    (harguments : c.invocation ≠ .special → c.target.type = .classRef ctx.className →
      ∀ ts, ctx.params? c.method = some ts →
        List.Forall₂ IrType.Fits ts (c.arguments.map Operand.type)) : c.In ctx Γ := by
  refine ⟨⟨fun o ho => (h o ho).1, hreceiver, harguments⟩, fun v hv => ?_⟩
  rcases List.mem_append.mp hv with hv | hv
  · exact (h c.target List.mem_cons_self).2 v hv
  · obtain ⟨o, ho, hv⟩ := List.mem_flatMap.mp hv
    exact (h o (List.mem_cons_of_mem _ ho)).2 v hv

namespace Instr.In

variable {dest : Var} {value : Rhs} {o o' : Operand} {target : String}

protected theorem assign (hdest : Γ dest) (hvalue : value.In ctx Γ)
    (hfits : dest.type.Fits value.type) : (Instr.assign dest value).In ctx Γ :=
  ⟨⟨hvalue.1, hfits⟩, List.forall_mem_cons.mpr ⟨hdest, hvalue.2⟩⟩

protected theorem arrayStore (harray : Γ dest ∧ dest.type.isArray = true)
    (ho : o.In ctx Γ ∧ o.type = .int32) (ho' : o'.In ctx Γ)
    (hfits : dest.type.element.Fits o'.type) : (Instr.arrayStore dest o o').In ctx Γ := by
  obtain ⟨harray, hdest⟩ := harray
  obtain ⟨ho, hindex⟩ := ho
  refine ⟨⟨ho.1, ho'.1, hdest, hindex, hfits⟩, ?_⟩
  exact List.forall_mem_cons.mpr ⟨harray, List.forall_mem_append.mpr ⟨ho.2, ho'.2⟩⟩

protected theorem putField {field : Var} (ho : o.In ctx Γ) (hfield : field ∈ ctx.fields)
    (ho' : o'.In ctx Γ) (hfits : field.type.Fits o'.type) :
    (Instr.putField o field o').In ctx Γ :=
  ⟨⟨ho.1, ho'.1, hfield, hfits⟩, List.forall_mem_append.mpr ⟨ho.2, ho'.2⟩⟩

protected theorem branch (ho : o.In ctx Γ ∧ o.type = .boolean) (htarget : IsLabel target) :
    (Instr.branch o target).In ctx Γ :=
  ⟨⟨ho.1.1, ho.2, htarget⟩, ho.1.2⟩

protected theorem goto (htarget : IsLabel target) : (Instr.goto target).In ctx Γ :=
  ⟨htarget, List.forall_mem_nil _⟩

protected theorem label (htarget : IsLabel target) : (Instr.label target).In ctx Γ :=
  ⟨htarget, List.forall_mem_nil _⟩

end Instr.In

/-! ## Temporary variables -/

/-- The variables have different names, which are issued on the way from one supply to another. -/
structure Supply.Declares (s s' : Supply) (temps : List Var) : Prop where
  precedes : s.Precedes s'
  nodup : (temps.map Var.name).Nodup
  fresh : ∀ v ∈ temps, s.MayIssue v.name ∧ ¬s'.MayIssue v.name

namespace Supply.Declares

variable {s s' s'' : Supply} {vs vs' : List Var}

theorem of_precedes (h : s.Precedes s') : s.Declares s' [] :=
  ⟨h, List.nodup_nil, fun _ hv => nomatch hv⟩

theorem temp (s : Supply) (t : IrType) : s.Declares s.temp.2 [⟨s.temp.1, t⟩] := by
  refine ⟨.temp s, List.nodup_singleton _, fun v hv => ?_⟩
  obtain rfl := List.mem_singleton.mp hv
  exact ⟨s.mayIssue_temp, s.not_mayIssue_temp⟩

theorem append (h : s.Declares s' vs) (h' : s'.Declares s'' vs') : s.Declares s'' (vs ++ vs') := by
  refine ⟨h.precedes.trans h'.precedes, ?_, fun v hv => ?_⟩
  · rw [List.map_append, List.nodup_append]
    refine ⟨h.nodup, h'.nodup, ?_⟩
    rintro x hx y hy rfl
    obtain ⟨v, hv, rfl⟩ := List.mem_map.mp hx
    obtain ⟨v', hv', hname⟩ := List.mem_map.mp hy
    exact (h.fresh v hv).2 (hname ▸ (h'.fresh v' hv').1)
  · rcases List.mem_append.mp hv with hv | hv
    · exact ⟨(h.fresh v hv).1, fun hmay => (h.fresh v hv).2 (h'.precedes.mayIssue hmay)⟩
    · exact ⟨h.precedes.mayIssue (h'.fresh v hv).1, (h'.fresh v hv).2⟩

end Supply.Declares

/-! ## What lowerings give -/

namespace Lower

variable {α β : Type} {K : Var → Prop} {P P' : (Var → Prop) → α → Prop}
  {Q : (Var → Prop) → β → Prop} {x : Lower α}

/-- What the lowering returns fulfils a condition on the variables that there are, if the known
ones and some new temporary variables are among them. -/
def Gives (K : Var → Prop) (x : Lower α) (P : (Var → Prop) → α → Prop) : Prop :=
  ∀ s a s', x.run s = .ok (a, s') → ∃ temps, s.Declares s' temps ∧
    ∀ Γ : Var → Prop, (∀ v, K v → Γ v) → (∀ v ∈ temps, Γ v) → P Γ a

namespace Gives

theorem mono (hx : Gives K x P) (h : ∀ Γ a, (∀ v, K v → Γ v) → P Γ a → P' Γ a) :
    Gives K x P' := by
  intro s a s' ha
  obtain ⟨temps, htemps, hP⟩ := hx s a s' ha
  exact ⟨temps, htemps, fun Γ hK hΓ => h Γ a hK (hP Γ hK hΓ)⟩

protected theorem pure {a : α} (h : ∀ Γ, (∀ v, K v → Γ v) → P Γ a) : Gives K (pure a) P := by
  intro s b s' hb
  obtain ⟨rfl, rfl⟩ := run_pure_eq_ok.mp hb
  exact ⟨[], .of_precedes (.refl _), fun Γ hK _ => h Γ hK⟩

protected theorem throw {e : LoweringError} : Gives K (throw e : Lower α) P :=
  fun _ _ _ ha => absurd ha run_throw_ne_ok

/-- What the second lowering gives may depend on what the first one gave. -/
protected theorem bind {f : α → Lower β} (hx : Gives K x P)
    (hf : ∀ a, Gives K (f a) fun Γ b => P Γ a → Q Γ b) : Gives K (x >>= f) Q := by
  intro s b s' hb
  obtain ⟨a, s₁, ha, hb⟩ := run_bind_eq_ok.mp hb
  obtain ⟨temps, htemps, hP⟩ := hx s a s₁ ha
  obtain ⟨temps', htemps', hQ⟩ := hf a s₁ b s' hb
  refine ⟨temps ++ temps', htemps.append htemps', fun Γ hK hΓ => ?_⟩
  obtain ⟨hΓ, hΓ'⟩ := List.forall_mem_append.mp hΓ
  exact hQ Γ hK hΓ' (hP Γ hK hΓ)

/-- What is yielded whatever the supply is. -/
theorem and_yields {R : α → Prop} {E : LoweringError → Prop} (hx : Gives K x P)
    (h : Yields x R E) : Gives K x fun Γ a => P Γ a ∧ R a := by
  intro s a s' ha
  obtain ⟨temps, htemps, hP⟩ := hx s a s' ha
  exact ⟨temps, htemps, fun Γ hK hΓ => ⟨hP Γ hK hΓ, h.of_run ha⟩⟩

theorem temp (t : IrType) : Gives K (temp t) fun Γ v => Γ v ∧ v.type = t := by
  intro s v s' hv
  obtain ⟨rfl, rfl⟩ := temp_eq_ok hv
  exact ⟨_, .temp s t, fun Γ _ hΓ => ⟨hΓ _ List.mem_cons_self, rfl⟩⟩

theorem label (k : LabelKind) : Gives K (label k) fun _ _ => True := by
  intro s n s' hn
  obtain ⟨rfl, rfl⟩ := label_eq_ok hn
  exact ⟨[], .of_precedes (Supply.Issues.label s k).precedes, fun _ _ _ => trivial⟩

end Gives

/-! ### Values -/

/-- The value is an operand of well-typed code. -/
def ValueIn (ctx : Context) (Γ : Var → Prop) (v : Value) : Prop :=
  CodeIn ctx Γ v.code ∧ v.operand.In ctx Γ

/-- The value is an operand of this type of well-typed code. -/
def TypedIn (ctx : Context) (t : IrType) (Γ : Var → Prop) (v : Value) : Prop :=
  ValueIn ctx Γ v ∧ v.operand.type = t

variable {xs : List (Lower Value)} {t : IrType} {ts : List IrType}

/-- A lowering gives a value. -/
abbrev GivesValue (ctx : Context) (K : Var → Prop) (x : Lower Value) : Prop :=
  Gives K x (ValueIn ctx)

/-- A lowering gives a value of this type. -/
abbrev GivesTyped (ctx : Context) (K : Var → Prop) (t : IrType) (x : Lower Value) : Prop :=
  Gives K x (TypedIn ctx t)

theorem assignTemp_gives (ctx : Context) (code : Code) (rhs : Rhs) :
    Gives K (assignTemp code rhs) fun Γ v =>
      CodeIn ctx Γ code → rhs.In ctx Γ → ValueIn ctx Γ v := by
  refine (Gives.temp rhs.type).bind fun dest => .pure fun Γ _ hdest hcode hrhs => ?_
  refine ⟨?_, Operand.in_var hdest.1⟩
  rw [codeIn_append, codeIn_cons]
  exact ⟨hcode, .assign hdest.1 hrhs (.inl hdest.2), codeIn_nil⟩

theorem toVar_gives (ctx : Context) (t : IrType) (v : Value) : Gives K (toVar v) fun Γ a =>
    TypedIn ctx t Γ v → CodeIn ctx Γ a.2 ∧ Γ a.1 ∧ a.1.type = t := by
  unfold toVar
  split
  · rename_i x hx
    rintro s a s' ha
    obtain ⟨rfl, rfl⟩ := run_pure_eq_ok.mp ha
    refine ⟨[], .of_precedes (.refl _), fun Γ _ _ ⟨hv, ht⟩ => ⟨hv.1, hv.2.2 x ?_, ?_⟩⟩
    · rw [hx]
      exact List.mem_singleton_self x
    · rwa [hx] at ht
  · refine (Gives.temp v.operand.type).bind fun dest => .pure fun Γ _ hdest ⟨hv, ht⟩ => ?_
    refine ⟨?_, hdest.1, hdest.2.trans ht⟩
    rw [codeIn_append, codeIn_cons]
    exact ⟨hv.1, .assign hdest.1 hv.2 (.inl hdest.2), codeIn_nil⟩

theorem inOrder_gives (h : List.Forall₂ (GivesTyped ctx K) ts xs) : Gives K (inOrder xs) fun Γ a =>
    (∀ o ∈ a.1, o.In ctx Γ) ∧ a.1.map Operand.type = ts ∧ CodeIn ctx Γ a.2 := by
  induction h with
  | nil => exact .pure fun Γ _ => ⟨List.forall_mem_nil _, rfl, codeIn_nil⟩
  | cons hx _ ih =>
    refine hx.bind fun v => ih.bind fun (os, code) => .pure fun Γ _ hrest hv => ⟨?_, ?_, ?_⟩
    · exact List.forall_mem_cons.mpr ⟨hv.1.2, hrest.1⟩
    · rw [List.map_cons, hv.2, hrest.2.1]
    · exact codeIn_append.mpr ⟨hv.1.1, hrest.2.2⟩

theorem storeFrom_gives (array : Var) (index : Nat) (ht : t.isArray = true)
    (h : List.Forall₂ (GivesTyped ctx K) ts xs) (hfits : ∀ t' ∈ ts, t.element.Fits t') :
    Gives K (storeFrom array index xs) fun Γ code =>
      Γ array ∧ array.type = t → CodeIn ctx Γ code := by
  induction h generalizing index with
  | nil => exact .pure fun Γ _ _ => codeIn_nil
  | cons hx _ ih =>
    obtain ⟨hfit, hfits⟩ := List.forall_mem_cons.mp hfits
    refine hx.bind fun v => (ih (index + 1) hfits).bind fun code =>
      .pure fun Γ _ hrest hv harray => ?_
    have hindex : (Operand.int (.ofNat index)).In ctx Γ := ⟨.inl rfl, List.forall_mem_nil _⟩
    rw [codeIn_append, codeIn_cons]
    refine ⟨hv.1.1, .arrayStore ⟨harray.1, ?_⟩ ⟨hindex, rfl⟩ hv.1.2 ?_, hrest harray⟩
    · rw [harray.2, ht]
    · rwa [harray.2, hv.2]

theorem packArray_gives (ht : t.isArray = true) (h : List.Forall₂ (GivesTyped ctx K) ts xs)
    (hfits : ∀ t' ∈ ts, t.element.Fits t') : Gives K (packArray t xs) fun Γ a =>
    (Γ a.1 ∧ a.1.type = t) ∧ CodeIn ctx Γ a.2 := by
  refine (Gives.temp t).bind fun array => (storeFrom_gives array 0 ht h hfits).bind fun code =>
    .pure fun Γ _ hcode harray => ⟨harray, ?_⟩
  refine codeIn_cons.mpr ⟨.assign harray.1 ⟨⟨.inl rfl, ht⟩, ?_⟩ (.inl harray.2), hcode harray⟩
  exact List.forall_mem_nil _

/-! ### Operators -/

/-- A lowering gives a truth value. -/
abbrev GivesTruth (ctx : Context) (K : Var → Prop) (x : Lower Value) : Prop :=
  GivesTyped ctx K .boolean x

variable {y : Lower Value}

theorem logical_gives {x : Lower Value} {k : LabelKind} {code : Nat → Var → Value → Value → Code}
    (hx : GivesTruth ctx K x) (hy : GivesTruth ctx K y)
    (hcode : ∀ Γ n result a b, Γ result ∧ result.type = .boolean →
      TypedIn ctx .boolean Γ a → TypedIn ctx .boolean Γ b → CodeIn ctx Γ (code n result a b)) :
    GivesValue ctx K (do
      let n ← label k
      let result ← temp .boolean
      let a ← x
      let b ← y
      return ⟨.var result, code n result a b⟩) := by
  refine (Gives.label k).bind fun n => (Gives.temp .boolean).bind fun result => ?_
  refine hx.bind fun a => hy.bind fun b => .pure fun Γ _ hb ha hresult _ => ?_
  exact ⟨hcode Γ n result a b hresult ha hb, Operand.in_var hresult.1⟩

theorem binary_gives_of_logical {x : Lower Value} {op : BinaryOp} (hop : op.isLogical = true)
    (hx : GivesTruth ctx K x) (hy : GivesTruth ctx K y) :
    GivesValue ctx K (binary op x y) := by
  have hassign {Γ : Var → Prop} {result : Var} {o : Operand}
      (hresult : Γ result ∧ result.type = .boolean) (ho : o.In ctx Γ ∧ o.type = .boolean) :
      (Instr.assign result (.single o)).In ctx Γ :=
    .assign hresult.1 ho.1 (.inl (hresult.2.trans ho.2.symm))
  cases op with
  | and =>
    refine logical_gives (k := .and) hx hy fun Γ n result a b hresult ha hb => ?_
    have htrue := LabelKind.isLabel (k := .and) List.mem_cons_self n
    have hend := LabelKind.isLabel (k := .and) mem_second n
    simp only [codeIn_append, codeIn_cons, codeIn_nil, and_true, and_assoc]
    exact ⟨ha.1.1, .branch ⟨ha.1.2, ha.2⟩ htrue, hassign hresult ⟨Operand.in_bool false, rfl⟩,
      .goto hend, .label htrue, hb.1.1, hassign hresult ⟨hb.1.2, hb.2⟩, .label hend⟩
  | or =>
    refine logical_gives (k := .or) hx hy fun Γ n result a b hresult ha hb => ?_
    have htrue := LabelKind.isLabel (k := .or) List.mem_cons_self n
    have hend := LabelKind.isLabel (k := .or) mem_second n
    simp only [codeIn_append, codeIn_cons, codeIn_nil, and_true, and_assoc]
    exact ⟨ha.1.1, .branch ⟨ha.1.2, ha.2⟩ htrue, hb.1.1, hassign hresult ⟨hb.1.2, hb.2⟩,
      .goto hend, .label htrue, hassign hresult ⟨Operand.in_bool true, rfl⟩, .label hend⟩
  | _ => cases hop

theorem binary_gives_of_not_logical {x : Lower Value} {op : BinaryOp}
    (hop : op.isLogical = false) (ht : op.isEquality = false → t = .int32)
    (harray : t.isArray = false) (hvoid : t ≠ .void) (hx : GivesTyped ctx K t x)
    (hy : GivesTyped ctx K t y) : GivesValue ctx K (binary op x y) := by
  have hvalue {op' : BinOp} (hop' : BinOp.ofOperator? op = some op') : GivesValue ctx K (do
      let a ← x
      let b ← y
      assignTemp (a.code ++ b.code) (.binary op' a.operand b.operand)) := by
    refine hx.bind fun a => hy.bind fun b => (assignTemp_gives ctx _ _).mono ?_
    intro Γ v _ hv hb ha
    refine hv (codeIn_append.mpr ⟨ha.1.1, hb.1.1⟩)
      ⟨⟨ha.1.2.1, hb.1.2.1, ?_, fun heq hne => ?_, ?_, ?_⟩, ?_⟩
    · rw [ha.2, hb.2]
    · rw [ha.2]
      refine ht ?_
      cases op <;> cases hop' <;> first | rfl | exact absurd rfl ‹_›
    · rw [ha.2, harray]
    · rwa [ha.2]
    · exact List.forall_mem_append.mpr ⟨ha.1.2.2, hb.1.2.2⟩
  cases op with
  | and | or => cases hop
  | _ => exact hvalue rfl

end Lower

end Ir

namespace Scope

open Lower

variable {sc : Scope}

/-- What the code of the method may refer to. -/
def context (sc : Scope) : Context where
  isStatic := sc.isStatic
  className := sc.table.className
  fields := sc.table.fields.map fun f => ⟨f.name, .ofTy f.type⟩
  params? method := (sc.table.params? method).map fun ps => ps.map fun p => .ofTy p.type

/-! ## Names and calls -/

/-- The variable is a parameter or local variable of the method. -/
def Knows (sc : Scope) (v : Var) : Prop :=
  ∃ b, sc.lookup? v.name = some b ∧ b.isMethodVariable = true ∧ v.type = .ofTy b.type

/-- A static method does not see fields. -/
theorem isStatic_of_lookup? {name : String} {t : Ty} (h : sc.lookup? name = some (.field t)) :
    sc.isStatic = false := by
  unfold lookup? at h
  split at h
  · cases h
  · simp only at h
    split at h
    · cases h
    · cases hstatic : sc.isStatic with
      | false => rfl
      | true =>
        rw [hstatic] at h
        simp at h

theorem lowerName_gives (name : String) (p : Position) :
    GivesValue sc.context sc.Knows (sc.lowerName name p) := by
  have hvariable {b : Binding} (hb : sc.lookup? name = some b) (hvar : b.isMethodVariable = true) :
      GivesValue sc.context sc.Knows (pure ⟨.var ⟨name, .ofTy b.type⟩, []⟩) := by
    exact .pure fun Γ hK => ⟨codeIn_nil, Operand.in_var (hK _ ⟨b, hb, hvar, rfl⟩)⟩
  unfold lowerName
  split
  · exact .pure fun Γ _ => ⟨codeIn_nil, trivial, List.forall_mem_nil _⟩
  · exact hvariable ‹_› rfl
  · exact hvariable ‹_› rfl
  · rename_i t hb
    refine (assignTemp_gives sc.context [] _).mono fun Γ v _ hv => hv codeIn_nil ⟨?_, ?_⟩
    · exact isStatic_of_lookup? hb
    · exact List.forall_mem_nil _
  · exact .throw

/-- Rows of arguments are taken in arrays. -/
def TakesRowsInArrays (sc : Scope) : Prop := ∀ method, sc.table.isVarargs method = true →
  ∃ p, ((sc.table.params? method).getD []).getLast? = some p ∧ p.type.isArray = true

/-- The types of the arguments of a call: either they fit the parameters, or the first ones fit those
in front of the last, which takes an array of all others. -/
def ArgumentsFit (sc : Scope) (receiver : Node) (method : String) (arguments : List Node)
    (ts : List IrType) : Prop :=
  ∀ params, sc.isLocalReceiver receiver = true → sc.context.params? method = some params →
    match sc.packing? receiver method arguments with
    | some (k, t) => List.Forall₂ IrType.Fits params (ts.take k ++ [t])
    | none => List.Forall₂ IrType.Fits params ts

/-- The types of the arguments that are packed fit the elements of the array. -/
def RowFits (sc : Scope) (receiver : Node) (method : String) (arguments : List Node)
    (ts : List IrType) : Prop :=
  ∀ k t, sc.packing? receiver method arguments = some (k, t) →
    t.isArray = true ∧ ∀ t' ∈ ts.drop k, t.element.Fits t'

theorem lowerArguments_gives {receiver : Node} {method : String} {arguments : List Node}
    {values : List (Lower Value)} {ts : List IrType}
    (h : List.Forall₂ (GivesTyped sc.context sc.Knows) ts values)
    (hrow : sc.RowFits receiver method arguments ts) (hfit : sc.ArgumentsFit receiver method arguments ts) :
    Gives sc.Knows (sc.lowerArguments receiver method arguments values) fun Γ a =>
      (∀ o ∈ a.1, o.In sc.context Γ) ∧ (∀ params, sc.isLocalReceiver receiver = true →
        sc.context.params? method = some params →
          List.Forall₂ IrType.Fits params (a.1.map Operand.type)) ∧ CodeIn sc.context Γ a.2 := by
  rw [lowerArguments_eq]
  unfold ArgumentsFit at hfit
  split
  · rename_i k t hpacking
    simp only [hpacking] at hfit
    obtain ⟨harray, hrow⟩ := hrow k t hpacking
    refine (inOrder_gives (List.forall₂_take k h)).bind fun (os, code) => ?_
    refine (packArray_gives harray (List.forall₂_drop k h) hrow).bind fun (array, code') => ?_
    refine .pure fun Γ _ hpacked hos => ⟨?_, fun params hlocal hparams => ?_, ?_⟩
    · refine List.forall_mem_append.mpr ⟨hos.1, List.forall_mem_singleton.mpr ?_⟩
      exact Operand.in_var hpacked.1.1
    · rw [List.map_append, hos.2.1, List.map_singleton, Operand.type, hpacked.1.2]
      exact hfit params hlocal hparams
    · exact codeIn_append.mpr ⟨hos.2.2, hpacked.2⟩
  · rename_i hpacking
    simp only [hpacking] at hfit
    refine (inOrder_gives h).mono fun Γ a _ ⟨hos, htypes, hcode⟩ => ⟨hos, ?_, hcode⟩
    rwa [htypes]

theorem lowerCall_gives {receiver : Node} {method : String} {arguments : List Node}
    {target : Lower Value} {values : List (Lower Value)} {ts : List IrType} {r : Ty}
    (hlocal : IrType.ofTy r = .classRef sc.table.className → sc.isLocalReceiver receiver = true)
    (hreference : (IrType.ofTy r).isReference = true)
    (hstatic : ∀ name, sc.staticReceiver? receiver = some name → IrType.ofTy r = .classRef name)
    (htarget : GivesTyped sc.context sc.Knows (.ofTy r) target)
    (h : List.Forall₂ (GivesTyped sc.context sc.Knows) ts values)
    (hrow : sc.RowFits receiver method arguments ts)
    (hfit : sc.ArgumentsFit receiver method arguments ts) (t : IrType) :
    Gives sc.Knows (sc.lowerCall t receiver method arguments target values) fun Γ a =>
      a.1.In sc.context Γ ∧ CodeIn sc.context Γ a.2 := by
  have harguments := lowerArguments_gives h hrow hfit
  unfold lowerCall
  split
  · rename_i name hname
    simp only [pure_bind]
    refine harguments.bind fun (os, code) => .pure fun Γ _ hos => ⟨?_, hos.2.2⟩
    refine Call.in_of_operands (List.forall_mem_cons.mpr ⟨⟨trivial, ?_⟩, hos.1⟩) (fun h => nomatch h)
      fun _ htype params hparams => ?_
    · exact List.forall_mem_nil _
    · exact hos.2.1 params (hlocal ((hstatic name hname).trans htype)) hparams
  · simp only [pure_bind]
    refine htarget.bind fun v => harguments.bind fun (os, code) => .pure fun Γ _ hos hv => ⟨?_, ?_⟩
    · refine Call.in_of_operands (List.forall_mem_cons.mpr ⟨hv.1.2, hos.1⟩) (fun _ => ?_)
        fun _ htype params hparams => ?_
      · exact hv.2 ▸ hreference
      · exact hos.2.1 params (hlocal (hv.2.symm.trans htype)) hparams
    · exact codeIn_append.mpr ⟨hv.1.1, hos.2.2⟩

/-- The expressions have types, of which their lowerings give values. -/
theorem lowerEach_gives {ns : List Node}
    (h : ∀ n ∈ ns, ∀ d, ∃ t, sc.typeOf? d n = some t ∧
      GivesTyped sc.context sc.Knows (.ofTy t) (sc.lowerExpr d n))
    {ds : List Ty} (hds : ds.length = ns.length) : ∃ ts : List Ty,
      ns.zipWith (fun n d => sc.typeOf? d n) ds = ts.map some ∧
        List.Forall₂ (GivesTyped sc.context sc.Knows) (ts.map IrType.ofTy) (sc.lowerEach ds ns) := by
  induction ns generalizing ds with
  | nil => exact ⟨[], rfl, .nil⟩
  | cons n ns ih =>
    obtain ⟨hn, hns⟩ := List.forall_mem_cons.mp h
    cases ds with
    | nil => cases hds
    | cons d ds =>
      obtain ⟨t, ht, hgives⟩ := hn d
      obtain ⟨ts, hts, hall⟩ := ih hns (Nat.succ.inj hds)
      exact ⟨t :: ts, by rw [List.zipWith_cons_cons, ht, hts, List.map_cons], .cons hgives hall⟩

end Scope

end MiniJava
