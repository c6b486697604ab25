import MiniJava.Proofs.Lowering.CallType
import MiniJava.Proofs.Lowering.Supply
import MiniJava.Proofs.Semantics.ThreeAddress
import MiniJava.Proofs.Yields

/-!
# The names in lowered code

A lowering takes all its labels and temporary variables from the supply. So the labels in its code
differ and are new (`Made.issues`), and the operands that it returns are settled: code that is made
later assigns to none of them (`Made.settled`). This holds of every lowering that succeeds, whatever
the program, if the supply reserves the variables of the method.
-/

namespace MiniJava

open Ir

/-- The parameters and local variables of the method are among these names. -/
def Scope.Reserves (sc : Scope) (reserved : List String) : Prop :=
  ∀ x b, sc.lookup? x = some b → b.isMethodVariable = true → x ∈ reserved

namespace Ir

/-- The labels in code. -/
def labels (code : Code) : List String := code.filterMap Instr.label?

@[simp] theorem labels_nil : labels [] = [] := rfl

@[simp] theorem labels_append (p q : Code) : labels (p ++ q) = labels p ++ labels q :=
  List.filterMap_append

@[simp] theorem labels_cons (i : Instr) (p : Code) :
    labels (i :: p) = i.label?.toList ++ labels p := by
  unfold labels
  rw [List.filterMap_cons]
  cases i.label? <;> rfl

@[simp] theorem labels_map_label (ls : List String) : labels (ls.map .label) = ls := by
  induction ls with
  | nil => rfl
  | cons l ls ih =>
    rw [List.map_cons, labels_cons, ih]
    rfl

/-- No later name is that of the operand. -/
def Operand.Settled (s : Supply) (o : Operand) : Prop := ∀ v, o = .var v → ¬s.MayIssue v.name

/-- What is made on the way from one supply to another: code with new labels, and operands that stay
as they are. -/
structure Made (s s' : Supply) (code : Code) (operands : List Operand) : Prop where
  issues : s.Issues s' (labels code)
  settled : ∀ o ∈ operands, o.Settled s'

variable {s s' s'' : Supply} {p q : Code} {os os' : List Operand} {o : Operand}

theorem Operand.Settled.mono (ho : o.Settled s) (h : s.Precedes s') : o.Settled s' :=
  fun v hv hmay => ho v hv (h.mayIssue hmay)

theorem Operand.settled_of_not_var (h : ∀ v, o ≠ .var v) : o.Settled s :=
  fun v hv _ => h v hv

theorem Operand.settled_of_mem {v : Var} (h : v.name ∈ s.reserved) : Settled s (.var v) := by
  intro v' hv' hmay
  cases hv'
  exact hmay.1 h

namespace Made

theorem precedes (h : Made s s' p os) : s.Precedes s' := h.issues.precedes

theorem nil (s : Supply) : Made s s [] [] := ⟨.refl s, fun _ ho => nomatch ho⟩

/-- What is made on consecutive ways. -/
theorem append (h : Made s s' p os) (h' : Made s' s'' q os') :
    Made s s'' (p ++ q) (os ++ os') := by
  refine ⟨?_, fun o ho => ?_⟩
  · rw [labels_append]
    exact h.issues.append h'.issues
  · rcases List.mem_append.mp ho with ho | ho
    · exact (h.settled o ho).mono h'.precedes
    · exact h'.settled o ho

/-- Other code with the same labels in another order, and fewer operands. -/
theorem of_perm (h : Made s s' p os) (hlabels : (labels p).Perm (labels q)) (hos : os' ⊆ os) :
    Made s s' q os' :=
  ⟨h.issues.perm hlabels, fun o ho => h.settled o (hos ho)⟩

/-- Other code with the same labels, and fewer operands. -/
theorem of_labels (h : Made s s' p os) (hlabels : labels q = labels p) (hos : os' ⊆ os) :
    Made s s' q os' :=
  h.of_perm (.of_eq hlabels.symm) hos

/-- An operand that was settled before. -/
theorem cons (h : Made s s' p os) (ho : o.Settled s) : Made s s' p (o :: os) :=
  ⟨h.issues, List.forall_mem_cons.mpr ⟨ho.mono h.precedes, h.settled⟩⟩

theorem temp (s : Supply) (t : IrType) : Made s s.temp.2 [] [.var ⟨s.temp.1, t⟩] := by
  refine ⟨.temp s, fun o ho v hv => ?_⟩
  obtain rfl := List.mem_singleton.mp ho
  cases hv
  exact s.not_mayIssue_temp

theorem label (s : Supply) (k : LabelKind) :
    Made s (s.label k).2 ((k.stems.map (· ++ toString (s.label k).1)).map .label) [] := by
  refine ⟨?_, fun _ ho => nomatch ho⟩
  rw [labels_map_label]
  exact .label s k

end Made

namespace Lower

variable {α : Type} {r : List String} {x y : Lower Value} {xs : List (Lower Value)}

theorem temp_eq_ok {t : IrType} {v : Var} (h : (temp t).run s = .ok (v, s')) :
    v = ⟨s.temp.1, t⟩ ∧ s' = s.temp.2 :=
  run_pure_eq_ok.mp h

theorem label_eq_ok {k : LabelKind} {n : Nat} (h : (label k).run s = .ok (n, s')) :
    n = (s.label k).1 ∧ s' = (s.label k).2 :=
  run_pure_eq_ok.mp h

/-- From a supply with these reserved names, a lowering makes this code and these operands. -/
def Makes (r : List String) (x : Lower α) (code : α → Code) (operands : α → List Operand) : Prop :=
  ∀ s a s', s.reserved = r → x.run s = .ok (a, s') → Made s s' (code a) (operands a)

/-- A lowering of a value. -/
abbrev MakesValue (r : List String) (x : Lower Value) : Prop :=
  Makes r x Value.code fun v => [v.operand]

theorem assignTemp_eq_ok {code : Code} {rhs : Rhs} {v : Value}
    (h : (assignTemp code rhs).run s = .ok (v, s')) :
    v = ⟨.var ⟨s.temp.1, rhs.type⟩, code ++ [.assign ⟨s.temp.1, rhs.type⟩ rhs]⟩ ∧
      s' = s.temp.2 := by
  obtain ⟨dest, s₁, hdest, h⟩ := run_bind_eq_ok.mp h
  obtain ⟨rfl, rfl⟩ := temp_eq_ok hdest
  exact run_pure_eq_ok.mp h

theorem made_assignTemp (h : Made s s' p os) {rhs : Rhs} {v : Value}
    (hv : (assignTemp p rhs).run s' = .ok (v, s'')) : Made s s'' v.code [v.operand] := by
  obtain ⟨rfl, rfl⟩ := assignTemp_eq_ok hv
  refine (h.append (.temp s' rhs.type)).of_labels ?_ (List.subset_append_right _ _)
  rw [List.append_nil, labels_append]
  exact List.append_nil _

theorem made_toVar {v : Value} (h : Made s s' v.code [v.operand]) {a : Var × Code}
    (ha : (toVar v).run s' = .ok (a, s'')) : Made s s'' a.2 [.var a.1] := by
  unfold toVar at ha
  split at ha
  · rename_i x hx
    cases ha
    rwa [hx] at h
  · obtain ⟨dest, s₁, hdest, ha⟩ := run_bind_eq_ok.mp ha
    obtain ⟨rfl, rfl⟩ := temp_eq_ok hdest
    obtain ⟨rfl, rfl⟩ := run_pure_eq_ok.mp ha
    refine (h.append (.temp s' v.operand.type)).of_labels ?_ (List.subset_append_right _ _)
    rw [List.append_nil, labels_append]
    exact List.append_nil _

theorem inOrder_makes (h : ∀ x ∈ xs, MakesValue r x) : Makes r (inOrder xs) Prod.snd Prod.fst := by
  induction xs with
  | nil =>
    rintro s a s' - ha
    cases ha
    exact .nil s
  | cons x xs ih =>
    obtain ⟨hx, hxs⟩ := List.forall_mem_cons.mp h
    intro s a s' hs ha
    obtain ⟨v, s₁, hv, ha⟩ := run_bind_eq_ok.mp ha
    obtain ⟨b, s₂, hb, ha⟩ := run_bind_eq_ok.mp ha
    obtain ⟨rfl, rfl⟩ := run_pure_eq_ok.mp ha
    have hmade := hx s v s₁ hs hv
    exact hmade.append (ih hxs s₁ b s' (hmade.precedes.reserved.trans hs) hb)

theorem storeFrom_makes (array : Var) (index : Nat) (h : ∀ x ∈ xs, MakesValue r x) :
    Makes r (storeFrom array index xs) id fun _ => [] := by
  induction xs generalizing index with
  | nil =>
    rintro s a s' - ha
    cases ha
    exact .nil s
  | cons x xs ih =>
    obtain ⟨hx, hxs⟩ := List.forall_mem_cons.mp h
    intro s a s' hs ha
    obtain ⟨v, s₁, hv, ha⟩ := run_bind_eq_ok.mp ha
    obtain ⟨b, s₂, hb, ha⟩ := run_bind_eq_ok.mp ha
    obtain ⟨rfl, rfl⟩ := run_pure_eq_ok.mp ha
    have hmade := hx s v s₁ hs hv
    have hrest := ih (index + 1) hxs s₁ b s' (hmade.precedes.reserved.trans hs) hb
    refine (hmade.append hrest).of_labels ?_ (List.nil_subset _)
    simp only [id, labels_append, labels_cons, Instr.label?, Option.toList_none, List.nil_append]

theorem packArray_makes (t : IrType) (h : ∀ x ∈ xs, MakesValue r x) :
    Makes r (packArray t xs) Prod.snd fun a => [.var a.1] := by
  intro s a s' hs ha
  obtain ⟨array, s₁, harray, ha⟩ := run_bind_eq_ok.mp ha
  obtain ⟨rfl, rfl⟩ := temp_eq_ok harray
  obtain ⟨code, s₂, hcode, ha⟩ := run_bind_eq_ok.mp ha
  obtain ⟨rfl, rfl⟩ := run_pure_eq_ok.mp ha
  exact ((Made.temp s t).append (storeFrom_makes _ 0 h s.temp.2 code s' hs hcode)).of_labels rfl
    (List.subset_append_left _ _)

/-- Two values are lowered behind the labels of a construct and a variable for the result. -/
theorem logical_eq_ok {k : LabelKind} {code : Nat → Var → Value → Value → Code} {v : Value}
    (h : StateT.run (do
      let n ← label k
      let result ← temp .boolean
      let a ← x
      let b ← y
      return ⟨.var result, code n result a b⟩) s = .ok (v, s')) :
    ∃ a b s₁, x.run (s.label k).2.temp.2 = .ok (a, s₁) ∧ y.run s₁ = .ok (b, s') ∧
      v = ⟨.var ⟨(s.label k).2.temp.1, .boolean⟩,
        code (s.label k).1 ⟨(s.label k).2.temp.1, .boolean⟩ a b⟩ := by
  obtain ⟨n, s₁, hn, h⟩ := run_bind_eq_ok.mp h
  obtain ⟨rfl, rfl⟩ := label_eq_ok hn
  obtain ⟨result, s₂, hresult, h⟩ := run_bind_eq_ok.mp h
  obtain ⟨rfl, rfl⟩ := temp_eq_ok hresult
  obtain ⟨a, s₃, ha, h⟩ := run_bind_eq_ok.mp h
  obtain ⟨b, s₄, hb, h⟩ := run_bind_eq_ok.mp h
  obtain ⟨rfl, rfl⟩ := run_pure_eq_ok.mp h
  exact ⟨a, b, s₃, ha, hb, rfl⟩

/-- Each label of the construct is in the code once. -/
theorem logical_makes {k : LabelKind} {code : Nat → Var → Value → Value → Code}
    (hx : MakesValue r x) (hy : MakesValue r y)
    (hcode : ∀ n result a b, (labels (code n result a b)).Perm
      (k.stems.map (· ++ toString n) ++ (labels a.code ++ labels b.code))) :
    MakesValue r (do
      let n ← label k
      let result ← temp .boolean
      let a ← x
      let b ← y
      return ⟨.var result, code n result a b⟩) := by
  intro s v s' hs h
  obtain ⟨a, b, s₁, ha, hb, rfl⟩ := logical_eq_ok h
  have hlabel := Made.label s k
  have htemp := Made.temp (s.label k).2 .boolean
  have hs₁ : (s.label k).2.temp.2.reserved = r := by
    rw [htemp.precedes.reserved, hlabel.precedes.reserved, hs]
  have hmade := hx _ a s₁ hs₁ ha
  have hmade' := hy s₁ b s' (hmade.precedes.reserved.trans hs₁) hb
  refine (hlabel.append (htemp.append (hmade.append hmade'))).of_perm ?_ ?_
  · refine List.Perm.trans (.of_eq ?_) (hcode _ _ a b).symm
    simp only [labels_append, labels_map_label, List.nil_append]
  · exact List.subset_append_of_subset_right _ (List.subset_append_left _ _)

theorem conjunction_makes (hx : MakesValue r x) (hy : MakesValue r y) :
    MakesValue r (conjunction x y) := by
  refine logical_makes (k := .and) hx hy fun n result a b => List.perm_iff_count.mpr fun l => ?_
  simp only [labels_append, labels_cons, labels_nil, Instr.label?, LabelKind.stems,
    List.map_cons, List.map_nil, List.count_append, List.count_cons, List.count_nil,
    Option.toList_none, Option.toList_some]
  omega

theorem disjunction_makes (hx : MakesValue r x) (hy : MakesValue r y) :
    MakesValue r (disjunction x y) := by
  refine logical_makes (k := .or) hx hy fun n result a b => List.perm_iff_count.mpr fun l => ?_
  simp only [labels_append, labels_cons, labels_nil, Instr.label?, LabelKind.stems,
    List.map_cons, List.map_nil, List.count_append, List.count_cons, List.count_nil,
    Option.toList_none, Option.toList_some]
  omega

theorem binary_makes (op : BinaryOp) (hx : MakesValue r x) (hy : MakesValue r y) :
    MakesValue r (binary op x y) := by
  have hvalue (op' : BinOp) : MakesValue r (do
      let a ← x
      let b ← y
      assignTemp (a.code ++ b.code) (.binary op' a.operand b.operand)) := by
    intro s v s' hs h
    obtain ⟨a, s₁, ha, h⟩ := run_bind_eq_ok.mp h
    obtain ⟨b, s₂, hb, h⟩ := run_bind_eq_ok.mp h
    have hmade := hx s a s₁ hs ha
    exact made_assignTemp (hmade.append (hy s₁ b s₂ (hmade.precedes.reserved.trans hs) hb)) h
  cases op with
  | and => exact conjunction_makes hx hy
  | or => exact disjunction_makes hx hy
  | _ => exact hvalue _

end Lower

end Ir

/-! ## The arguments of a call -/

theorem Ir.Lower.inOrder_take_drop (k : Nat) (xs : List (Lower Value)) :
    Lower.inOrder xs = do
      let (os, code) ← Lower.inOrder (xs.take k)
      let (os', code') ← Lower.inOrder (xs.drop k)
      return (os ++ os', code ++ code') := by
  induction xs generalizing k with
  | nil => cases k <;> simp [Lower.inOrder]
  | cons x xs ih =>
    cases k with
    | zero => simp [Lower.inOrder]
    | succ k => simp [Lower.inOrder, ih k]

theorem Act.inOrder_take_drop {ε : Type} (k : Nat) (xs : List (Act ε Val Val)) :
    Act.inOrder xs = do
      let vs ← Act.inOrder (xs.take k)
      return vs ++ (← Act.inOrder (xs.drop k)) := by
  induction xs generalizing k with
  | nil => cases k <;> simp [Act.inOrder]
  | cons x xs ih =>
    cases k with
    | zero => simp [Act.inOrder]
    | succ k => simp [Act.inOrder, ih k]

namespace Scope

variable (sc : Scope) (receiver : Node) (method : String) (arguments : List Node)

/-- How many arguments are passed as they are, and the type of the array into which the others are
packed, if any are. -/
def packing? : Option (Nat × IrType) :=
  let params := (sc.table.params? method).getD []
  if sc.isLocalReceiver receiver && sc.table.isVarargs method then
    let fixed := min (params.length - 1) arguments.length
    let isSingleArray := match arguments.drop fixed with
      | [a] => ((sc.typeOf? (sc.parameterDemand method fixed) a).map Ty.isArray).getD false
      | _ => false
    if isSingleArray then none
    else some (fixed, (params.getLast?.map fun p => IrType.ofTy p.type).getD .intArray)
  else none

theorem lowerArguments_eq (values : List (Lower Value)) :
    sc.lowerArguments receiver method arguments values =
      match sc.packing? receiver method arguments with
      | some (k, t) => do
        let (os, code) ← Lower.inOrder (values.take k)
        let (array, code') ← Lower.packArray t (values.drop k)
        return (os ++ [.var array], code ++ code')
      | none => Lower.inOrder values := by
  unfold lowerArguments packing?
  by_cases hpacks : (sc.isLocalReceiver receiver && sc.table.isVarargs method) = true
  · simp only [hpacks, if_true]
    generalize min (((sc.table.params? method).getD []).length - 1) arguments.length = k
    rcases arguments.drop k with _ | ⟨a, _ | _⟩
    · rfl
    · by_cases harray : ((sc.typeOf? (sc.parameterDemand method k) a).map Ty.isArray).getD false
      · simp only [harray, if_true]
        exact (Lower.inOrder_take_drop k values).symm
      · simp only [harray, if_false, Bool.false_eq_true]
    · rfl
  · simp only [hpacks, if_false, Bool.false_eq_true]

theorem passArguments_eq (w : World Effect Val) (values : List (Act Effect Val Val)) :
    sc.passArguments w receiver method arguments values =
      match sc.packing? receiver method arguments with
      | some (k, t) => do
        let first ← Act.inOrder (values.take k)
        return first ++ [← w.pack t (values.drop k)]
      | none => Act.inOrder values := by
  unfold passArguments packing?
  by_cases hpacks : (sc.isLocalReceiver receiver && sc.table.isVarargs method) = true
  · simp only [hpacks, if_true]
    generalize min (((sc.table.params? method).getD []).length - 1) arguments.length = k
    rcases arguments.drop k with _ | ⟨a, _ | _⟩
    · rfl
    · by_cases harray : ((sc.typeOf? (sc.parameterDemand method k) a).map Ty.isArray).getD false
      · simp only [harray, if_true]
        exact (Act.inOrder_take_drop k values).symm
      · simp only [harray, if_false, Bool.false_eq_true]
    · rfl
  · simp only [hpacks, if_false, Bool.false_eq_true]

end Scope

/-! ## Expressions -/

namespace Scope

variable {sc : Scope} {r : List String} {s s' : Supply}

open Lower

theorem lowerName_makes (hr : sc.Reserves r) (name : String) (p : Position) :
    MakesValue r (sc.lowerName name p) := by
  intro s v s' hs h
  unfold lowerName at h
  split at h
  · obtain ⟨rfl, rfl⟩ := run_pure_eq_ok.mp h
    exact (Made.nil _).cons (Operand.settled_of_not_var fun _ hv => nomatch hv)
  · obtain ⟨rfl, rfl⟩ := run_pure_eq_ok.mp h
    exact (Made.nil _).cons (Operand.settled_of_mem (hs.symm ▸ hr name _ ‹_› rfl))
  · obtain ⟨rfl, rfl⟩ := run_pure_eq_ok.mp h
    exact (Made.nil _).cons (Operand.settled_of_mem (hs.symm ▸ hr name _ ‹_› rfl))
  · exact made_assignTemp (Made.nil s) h
  · cases h

theorem lowerArguments_makes (receiver : Node) (method : String) (arguments : List Node)
    {values : List (Lower Value)} (h : ∀ x ∈ values, MakesValue r x) :
    Makes r (sc.lowerArguments receiver method arguments values) Prod.snd Prod.fst := by
  rw [lowerArguments_eq]
  split
  · rename_i k t hpacking
    intro s a s' hs ha
    obtain ⟨fixed, s₁, hfixed, ha⟩ := run_bind_eq_ok.mp ha
    obtain ⟨array, s₂, harray, ha⟩ := run_bind_eq_ok.mp ha
    obtain ⟨rfl, rfl⟩ := run_pure_eq_ok.mp ha
    have hmade := inOrder_makes (fun x hx => h x (List.mem_of_mem_take hx)) s fixed s₁ hs hfixed
    exact hmade.append (packArray_makes t (fun x hx => h x (List.mem_of_mem_drop hx)) s₁ array s'
      (hmade.precedes.reserved.trans hs) harray)
  · exact inOrder_makes h

theorem lowerCall_makes (t : IrType) (receiver : Node) (method : String) (arguments : List Node)
    {target : Lower Value} {values : List (Lower Value)} (htarget : MakesValue r target)
    (h : ∀ x ∈ values, MakesValue r x) :
    Makes r (sc.lowerCall t receiver method arguments target values) Prod.snd
      fun a => a.1.target :: a.1.arguments := by
  intro s a s' hs ha
  unfold lowerCall at ha
  split at ha
  · simp only [pure_bind] at ha
    obtain ⟨b, s₁, hb, ha⟩ := run_bind_eq_ok.mp ha
    obtain ⟨rfl, rfl⟩ := run_pure_eq_ok.mp ha
    exact (sc.lowerArguments_makes receiver method arguments h s b s' hs hb).cons
      (Operand.settled_of_not_var fun _ hv => nomatch hv)
  · simp only [pure_bind] at ha
    obtain ⟨v, s₁, hv, ha⟩ := run_bind_eq_ok.mp ha
    obtain ⟨b, s₂, hb, ha⟩ := run_bind_eq_ok.mp ha
    obtain ⟨rfl, rfl⟩ := run_pure_eq_ok.mp ha
    have hmade := htarget s v s₁ hs hv
    exact hmade.append (sc.lowerArguments_makes receiver method arguments h s₁ b s'
      (hmade.precedes.reserved.trans hs) hb)

theorem lowerEach_makes {ns : List Node} (h : ∀ n ∈ ns, ∀ d, MakesValue r (sc.lowerExpr d n))
    (ds : List Ty) : ∀ x ∈ sc.lowerEach ds ns, MakesValue r x := by
  induction ns generalizing ds with
  | nil => exact fun _ hx => nomatch hx
  | cons n ns ih =>
    obtain ⟨hn, hns⟩ := List.forall_mem_cons.mp h
    exact List.forall_mem_cons.mpr ⟨hn _, ih hns ds.tail⟩

/-- **The code for an expression has new labels, and its operand is settled.** -/
theorem lowerExpr_makes (hr : sc.Reserves r) (n : Node) (d : Ty) :
    MakesValue r (sc.lowerExpr d n) := by
  induction n using Node.induction generalizing d with
  | step n ih =>
    obtain ⟨i, p, k⟩ := n
    intro s v s' hs h
    cases k with
    | program | importDecl | classDecl | varDecl | methodDecl | param | assign | arrayAssign
    | returning | ifElse | whileLoop | block | exprStmt => cases h
    | intLit value | boolLit value | this =>
      obtain ⟨rfl, rfl⟩ := run_pure_eq_ok.mp h
      exact (Made.nil _).cons (Operand.settled_of_not_var fun _ hv => nomatch hv)
    | varRef name => exact sc.lowerName_makes hr name p s v s' hs h
    | paren inner => exact ih inner List.mem_cons_self d s v s' hs h
    | binary op left right =>
      exact binary_makes op (ih left List.mem_cons_self _)
        (ih right mem_second _) s v s' hs h
    | unary op operand =>
      cases op
      obtain ⟨a, s₁, ha, h⟩ := run_bind_eq_ok.mp h
      exact made_assignTemp (ih operand List.mem_cons_self _ s a s₁ hs ha) h
    | newObject className =>
      obtain ⟨a, s₁, ha, h⟩ := run_bind_eq_ok.mp h
      obtain ⟨rfl, rfl⟩ := run_pure_eq_ok.mp h
      refine (made_assignTemp (Made.nil s) ha).of_labels ?_ (List.Subset.refl _)
      rw [labels_append]
      exact List.append_nil _
    | newArray element size =>
      obtain ⟨a, s₁, ha, h⟩ := run_bind_eq_ok.mp h
      exact made_assignTemp (ih size List.mem_cons_self _ s a s₁ hs ha) h
    | arrayAccess array index =>
      obtain ⟨a, s₁, ha, h⟩ := run_bind_eq_ok.mp h
      obtain ⟨x, s₂, hx, h⟩ := run_bind_eq_ok.mp h
      obtain ⟨b, s₃, hb, h⟩ := run_bind_eq_ok.mp h
      have hmade := made_toVar (ih array List.mem_cons_self _ s a s₁ hs ha) hx
      have hs₂ := hmade.precedes.reserved.trans hs
      have hindex := ih index mem_second _ s₂ b s₃ hs₂ hb
      exact made_assignTemp (hmade.append hindex) h
    | arrayLength array =>
      obtain ⟨a, s₁, ha, h⟩ := run_bind_eq_ok.mp h
      obtain ⟨x, s₂, hx, h⟩ := run_bind_eq_ok.mp h
      exact made_assignTemp (made_toVar (ih array List.mem_cons_self _ s a s₁ hs ha) hx) h
    | arrayLit elements =>
      obtain ⟨a, s₁, ha, h⟩ := run_bind_eq_ok.mp h
      obtain ⟨rfl, rfl⟩ := run_pure_eq_ok.mp h
      exact packArray_makes _ (sc.lowerEach_makes (fun c hc => ih c hc) _) s a s' hs ha
    | call receiver method arguments =>
      have heach := sc.lowerEach_makes (r := r)
        (fun c hc => ih c (List.mem_cons_of_mem _ hc)) (sc.argumentDemands receiver method arguments)
      rw [lowerExpr_call] at h
      obtain ⟨⟨c, code⟩, s₁, hc, h⟩ := run_bind_eq_ok.mp h
      have hmade := sc.lowerCall_makes _ receiver method arguments
        (ih receiver List.mem_cons_self _) heach s (c, code) s₁ hs hc
      by_cases hvoid : c.returnType = .void
      · simp only [hvoid, if_true] at h
        obtain ⟨_, _, hthrow, -⟩ := run_bind_eq_ok.mp h
        exact absurd hthrow run_throw_ne_ok
      · simp only [hvoid, if_false] at h
        exact made_assignTemp hmade h

/-! ## Statements -/

/-- A lowering of a statement. -/
abbrev MakesCode (r : List String) (x : Lower Code) : Prop := Makes r x id fun _ => []

/-- What is computed into another variable ends with an assignment to the variable of its operand. -/
theorem retarget?_eq_some {dest : Var} {v : Value} {code : Code}
    (h : retarget? dest v = some code) : ∃ front last rhs,
      v = ⟨.var last, front ++ [.assign last rhs]⟩ ∧ code = front ++ [.assign dest rhs] := by
  unfold retarget? at h
  split at h
  · rename_i last rhs hlast
    split at h
    · rename_i hoperand
      obtain ⟨operand, c⟩ := v
      obtain ⟨front, rfl⟩ := List.getLast?_eq_some_iff.mp hlast
      cases hoperand
      cases h
      exact ⟨front, last, rhs, rfl, by rw [List.dropLast_concat]⟩
    · cases h
  · cases h

theorem lowerAssign_makes {x : Lower Value} (hx : MakesValue r x) (target : String)
    (p : Position) : MakesCode r (sc.lowerAssign target p x) := by
  intro s a s' hs ha
  obtain ⟨v, s₁, hv, ha⟩ := run_bind_eq_ok.mp ha
  have hmade := hx s v s₁ hs hv
  have hassign (dest : Var) : labels ((retarget? dest v).getD
      (v.code ++ [.assign dest (.single v.operand)])) = labels v.code := by
    cases hretarget : retarget? dest v with
    | none => simp [Instr.label?]
    | some code =>
      obtain ⟨front, last, rhs, rfl, rfl⟩ := retarget?_eq_some hretarget
      simp [Instr.label?]
  split at ha
  · obtain ⟨rfl, rfl⟩ := run_pure_eq_ok.mp ha
    exact hmade.of_labels (hassign _) (List.nil_subset _)
  · obtain ⟨rfl, rfl⟩ := run_pure_eq_ok.mp ha
    exact hmade.of_labels (hassign _) (List.nil_subset _)
  · obtain ⟨rfl, rfl⟩ := run_pure_eq_ok.mp ha
    exact hmade.of_labels (by simp [Instr.label?]) (List.nil_subset _)
  · exact absurd ha run_throw_ne_ok
  · exact absurd ha run_throw_ne_ok

theorem lowerArrayName_makes (hr : sc.Reserves r) (target : String) (p : Position) :
    Makes r (sc.lowerArrayName target p) Prod.snd fun a => [.var a.1] := by
  intro s a s' hs ha
  unfold lowerArrayName at ha
  split at ha
  · obtain ⟨rfl, rfl⟩ := run_pure_eq_ok.mp ha
    exact (Made.nil _).cons (Operand.settled_of_mem (hs.symm ▸ hr target _ ‹_› rfl))
  · obtain ⟨rfl, rfl⟩ := run_pure_eq_ok.mp ha
    exact (Made.nil _).cons (Operand.settled_of_mem (hs.symm ▸ hr target _ ‹_› rfl))
  · obtain ⟨dest, s₁, hdest, ha⟩ := run_bind_eq_ok.mp ha
    obtain ⟨rfl, rfl⟩ := temp_eq_ok hdest
    obtain ⟨rfl, rfl⟩ := run_pure_eq_ok.mp ha
    exact (Made.temp s _).of_labels rfl (List.Subset.refl _)
  · exact absurd ha run_throw_ne_ok
  · exact absurd ha run_throw_ne_ok

theorem lowerDropped_makes (hr : sc.Reserves r) (n : Node) : MakesCode r (sc.lowerDropped n) := by
  induction n using Node.induction with
  | step n ih =>
    obtain ⟨i, p, k⟩ := n
    have hvalue (n : Node) : MakesCode r (do return (← sc.lowerExpr .void n).code) := by
      intro s a s' hs ha
      obtain ⟨v, s₁, hv, ha⟩ := run_bind_eq_ok.mp ha
      obtain ⟨rfl, rfl⟩ := run_pure_eq_ok.mp ha
      exact (sc.lowerExpr_makes hr n .void s v s' hs hv).of_labels rfl (List.nil_subset _)
    cases k with
    | paren inner => exact ih inner List.mem_cons_self
    | call receiver method arguments =>
      have heach : ∀ x ∈ sc.lowerEach (sc.argumentDemands receiver method arguments) arguments,
          MakesValue r x :=
        sc.lowerEach_makes (fun c _ d => sc.lowerExpr_makes hr c d) _
      intro s a s' hs ha
      rw [lowerDropped_call] at ha
      obtain ⟨⟨c, code⟩, s₁, hc, ha⟩ := run_bind_eq_ok.mp ha
      obtain ⟨rfl, rfl⟩ := run_pure_eq_ok.mp ha
      refine (sc.lowerCall_makes _ receiver method arguments (sc.lowerExpr_makes hr receiver _)
        heach s (c, code) s' hs hc).of_labels ?_ (List.nil_subset _)
      simp [Instr.label?]
    | _ => exact hvalue _

theorem labels_closeWith (code : Code) (target : String) :
    labels (closeWith code target) = labels code := by
  unfold closeWith
  split
  · rfl
  · simp [Instr.label?]

theorem lowerStmts_makes {ns : List Node} (h : ∀ n ∈ ns, MakesCode r (sc.lowerStmt n)) :
    MakesCode r (sc.lowerStmts ns) := by
  induction ns with
  | nil =>
    rintro s a s' - ha
    cases ha
    exact .nil s
  | cons n ns ih =>
    obtain ⟨hn, hns⟩ := List.forall_mem_cons.mp h
    intro s a s' hs ha
    obtain ⟨p, s₁, hp, ha⟩ := run_bind_eq_ok.mp ha
    obtain ⟨q, s₂, hq, ha⟩ := run_bind_eq_ok.mp ha
    obtain ⟨rfl, rfl⟩ := run_pure_eq_ok.mp ha
    have hmade := hn s p s₁ hs hp
    exact hmade.append (ih hns s₁ q s' (hmade.precedes.reserved.trans hs) hq)

/-- **The code for a statement has new labels.** -/
theorem lowerStmt_makes (hr : sc.Reserves r) (n : Node) : MakesCode r (sc.lowerStmt n) := by
  induction n using Node.induction with
  | step n ih =>
    obtain ⟨i, p, k⟩ := n
    have hexpr (n : Node) (d : Ty) := sc.lowerExpr_makes hr n d
    intro s a s' hs ha
    cases k with
    | assign target value => exact sc.lowerAssign_makes (hexpr value _) target p s a s' hs ha
    | arrayAssign target index value =>
      obtain ⟨array, s₁, harray, ha⟩ := run_bind_eq_ok.mp ha
      obtain ⟨j, s₂, hj, ha⟩ := run_bind_eq_ok.mp ha
      obtain ⟨v, s₃, hv, ha⟩ := run_bind_eq_ok.mp ha
      obtain ⟨rfl, rfl⟩ := run_pure_eq_ok.mp ha
      have hmade := sc.lowerArrayName_makes hr target p s array s₁ hs harray
      have hs₁ := hmade.precedes.reserved.trans hs
      have hmade' := hmade.append (hexpr index _ s₁ j s₂ hs₁ hj)
      have hs₂ := hmade'.precedes.reserved.trans hs
      refine (hmade'.append (hexpr value _ s₂ v s' hs₂ hv)).of_labels ?_ (List.nil_subset _)
      simp [Instr.label?]
    | returning value =>
      cases value with
      | none =>
        obtain ⟨rfl, rfl⟩ := run_pure_eq_ok.mp ha
        exact (Made.nil _).of_labels rfl (List.nil_subset _)
      | some value =>
        obtain ⟨v, s₁, hv, ha⟩ := run_bind_eq_ok.mp ha
        obtain ⟨rfl, rfl⟩ := run_pure_eq_ok.mp ha
        refine (hexpr value _ s v s' hs hv).of_labels ?_ (List.nil_subset _)
        simp [Instr.label?]
    | ifElse c thenBranch elseBranch =>
      have hthen := ih thenBranch mem_second
      cases elseBranch with
      | none =>
        obtain ⟨n, s₁, hn, ha⟩ := run_bind_eq_ok.mp ha
        obtain ⟨rfl, rfl⟩ := label_eq_ok hn
        obtain ⟨v, s₂, hv, ha⟩ := run_bind_eq_ok.mp ha
        obtain ⟨thenCode, s₃, ht, ha⟩ := run_bind_eq_ok.mp ha
        obtain ⟨rfl, rfl⟩ := run_pure_eq_ok.mp ha
        have hlabel := Made.label s .ifElse
        have hs₁ := hlabel.precedes.reserved.trans hs
        have hcond := hlabel.append (hexpr c _ _ v s₂ hs₁ hv)
        have hs₂ := hcond.precedes.reserved.trans hs
        refine (hcond.append (hthen s₂ thenCode s' hs₂ ht)).of_perm ?_ (List.nil_subset _)
        refine List.perm_iff_count.mpr fun l => ?_
        simp only [id, labels_append, labels_cons, labels_nil, Instr.label?, LabelKind.stems,
          List.map_cons, List.map_nil, List.count_append, List.count_cons, List.count_nil,
          Option.toList_none, Option.toList_some]
        omega
      | some elseBranch =>
        have helse := ih elseBranch mem_third
        obtain ⟨n, s₁, hn, ha⟩ := run_bind_eq_ok.mp ha
        obtain ⟨rfl, rfl⟩ := label_eq_ok hn
        obtain ⟨v, s₂, hv, ha⟩ := run_bind_eq_ok.mp ha
        obtain ⟨elseCode, s₃, he, ha⟩ := run_bind_eq_ok.mp ha
        obtain ⟨thenCode, s₄, ht, ha⟩ := run_bind_eq_ok.mp ha
        obtain ⟨rfl, rfl⟩ := run_pure_eq_ok.mp ha
        have hlabel := Made.label s .ifElse
        have hs₁ := hlabel.precedes.reserved.trans hs
        have hcond := hlabel.append (hexpr c _ _ v s₂ hs₁ hv)
        have hs₂ := hcond.precedes.reserved.trans hs
        have hmade := hcond.append (helse s₂ elseCode s₃ hs₂ he)
        have hs₃ := hmade.precedes.reserved.trans hs
        refine (hmade.append (hthen s₃ thenCode s' hs₃ ht)).of_perm ?_ (List.nil_subset _)
        refine List.perm_iff_count.mpr fun l => ?_
        simp only [id, labels_append, labels_closeWith, labels_cons, labels_nil, Instr.label?,
          LabelKind.stems, List.map_cons, List.map_nil, List.count_append, List.count_cons,
          List.count_nil, Option.toList_none, Option.toList_some]
        omega
    | whileLoop c body =>
      obtain ⟨n, s₁, hn, ha⟩ := run_bind_eq_ok.mp ha
      obtain ⟨rfl, rfl⟩ := label_eq_ok hn
      obtain ⟨v, s₂, hv, ha⟩ := run_bind_eq_ok.mp ha
      obtain ⟨bodyCode, s₃, hb, ha⟩ := run_bind_eq_ok.mp ha
      obtain ⟨rfl, rfl⟩ := run_pure_eq_ok.mp ha
      have hlabel := Made.label s .whileLoop
      have hs₁ := hlabel.precedes.reserved.trans hs
      have hcond := hlabel.append (hexpr c _ _ v s₂ hs₁ hv)
      have hs₂ := hcond.precedes.reserved.trans hs
      have hbody := ih body mem_second
      refine (hcond.append (hbody s₂ bodyCode s' hs₂ hb)).of_perm ?_ (List.nil_subset _)
      refine List.perm_iff_count.mpr fun l => ?_
      simp only [id, labels_append, labels_cons, labels_nil, Instr.label?, LabelKind.stems,
        List.map_cons, List.map_nil, List.count_append, List.count_cons, List.count_nil,
        Option.toList_none, Option.toList_some]
      omega
    | block statements => exact sc.lowerStmts_makes ih s a s' hs ha
    | exprStmt e => exact sc.lowerDropped_makes hr e s a s' hs ha
    | _ => exact absurd ha run_throw_ne_ok

end Scope

end MiniJava
