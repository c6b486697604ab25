import MiniJava.Jvm.Registers
import MiniJava.Proofs.Lowering.Regular
import MiniJava.Proofs.Semantics.Visits

/-!
# Variables are assigned before they are read

A path that does not assign a variable is one of a control flow that stops in front of its
assignments (`Ir.avoiding`). Lowered code is ready for any variable that is neither a parameter nor
local in its method (`Ir.Ready`): no such path comes to an instruction that reads the variable, and
none comes to the end if the variable is an operand of what follows. This holds of every lowering
that succeeds, whatever the program.
-/

namespace MiniJava

open Ir

namespace Ir

/-! ## Reading and assigning -/

/-- The variable that an instruction assigns. -/
def Instr.dest? : Instr → Option String
  | assign dest _ => some dest.name
  | _ => none

/-- The variables that an instruction reads. -/
def Instr.reads : Instr → List String
  | assign _ value => value.vars.map Var.name
  | i => i.vars.map Var.name

/-- The variable that an operand is. -/
def Operand.names (o : Operand) : List String := o.vars.map Var.name

/-- How three-address code passes control on as long as the variable is not assigned. -/
def avoiding (x : String) : ControlFlow Instr :=
  ⟨Instr.label?, Instr.target?, fun i => !i.isTerminator && i.dest? != some x⟩

/-! ## Code that is ready -/

/-- The code jumps to its own labels. Its paths assign `x` before they read it, and before they come
to the end if `x` is one of these names. -/
structure Ready (x : String) (code : Code) (names : List String) : Prop where
  closed : targets code ⊆ labels code
  defined : (labels code).Nodup → ∀ i, (avoiding x).Visits code i → x ∉ i.reads
  assigned : x ∈ names → (labels code).Nodup → ¬(avoiding x).Through code

variable {x : String} {code p q back : Code} {ns ms : List String} {i : Instr} {o : Operand}

/-- No path leads through code that ends with a jump or a return. -/
theorem not_through_of_endsInJump (h : endsInJump p = true) : ¬(avoiding x).Through p := by
  intro hthrough
  unfold endsInJump at h
  cases hlast : p.getLast? with
  | none => simp [hlast] at h
  | some i =>
    obtain ⟨front, rfl⟩ := List.getLast?_eq_some_iff.mp hlast
    have hfalls := ControlFlow.falls_of_through hthrough
    simp_all [avoiding]

theorem nodup_labels_of_part (h : p <:+: q) (hq : (labels q).Nodup) : (labels p).Nodup :=
  hq.sublist (h.sublist.filterMap Instr.label?)

/-- Two cases jump to their own labels. -/
theorem targets_fork_subset {l e : String} (hp : targets p ⊆ labels p) (hq : targets q ⊆ labels q)
    (hback : back ⊆ [.goto e]) :
    targets (.branch o l :: (p ++ (back ++ .label l :: (q ++ [.label e])))) ⊆
      labels (.branch o l :: (p ++ (back ++ .label l :: (q ++ [.label e])))) := by
  intro k hk
  have hback : k ∈ targets back → k = e := by
    intro hk
    obtain ⟨j, hj, htarget⟩ := List.mem_filterMap.mp hk
    obtain rfl := List.mem_singleton.mp (hback hj)
    exact (Option.some.inj htarget).symm
  simp only [targets_cons, targets_append, targets_nil, labels_cons, labels_append, labels_nil,
    Instr.target?, Instr.label?, Option.toList_some, Option.toList_none, List.mem_append,
    List.mem_singleton, List.not_mem_nil, or_false, false_or] at hk ⊢
  rcases hk with hk | hk | hk | hk
  · exact .inr (.inr (.inl hk))
  · exact .inl (hp hk)
  · exact .inr (.inr (.inr (.inr (hback hk))))
  · exact .inr (.inr (.inr (.inl (hq hk))))

namespace Ready

theorem nil (hx : x ∉ ns) : Ready x [] ns :=
  ⟨List.nil_subset _, fun _ _ h => absurd h ControlFlow.not_visits_nil, fun h => absurd h hx⟩

theorem mono (h : Ready x p ns) (hms : x ∈ ms → x ∈ ns) : Ready x p ms :=
  ⟨h.closed, h.defined, fun hx => h.assigned (hms hx)⟩

/-- Behind code that assigns `x` on all paths anything may follow, and else what is ready itself. -/
theorem andThen (hp : Ready x p ns) (hq : targets q ⊆ labels q) (h : x ∉ ns → Ready x q ms) :
    Ready x (p ++ q) ms := by
  have hclosed := ControlFlow.closed_append (F := avoiding x) hp.closed hq
  have split (hnodup : (labels (p ++ q)).Nodup) : (labels p).Nodup ∧ (labels q).Nodup := by
    rw [labels_append, List.nodup_append] at hnodup
    exact ⟨hnodup.1, hnodup.2.1⟩
  refine ⟨hclosed, fun hnodup i hi => ?_, fun hx hnodup hthrough => ?_⟩
  · rcases ControlFlow.Closed.visits_append (F := avoiding x) hp.closed hq hnodup hi with
      hi | ⟨hthrough, hi⟩
    · exact hp.defined (split hnodup).1 i hi
    · have hx : x ∉ ns := fun hx => hp.assigned hx (split hnodup).1 hthrough
      exact (h hx).defined (split hnodup).2 i hi
  · obtain ⟨hthrough, hthrough'⟩ :=
      ControlFlow.Closed.through_append (F := avoiding x) hp.closed hq hnodup hthrough
    by_cases hns : x ∈ ns
    · exact hp.assigned hns (split hnodup).1 hthrough
    · exact (h hns).assigned hx (split hnodup).2 hthrough'

/-- Behind each other, operands of both parts are assigned. -/
theorem append (hp : Ready x p ns) (hq : Ready x q ms) : Ready x (p ++ q) (ns ++ ms) := by
  have hfirst : Ready x (p ++ q) ns := hp.andThen hq.closed fun hx => hq.mono fun h => absurd h hx
  refine ⟨hfirst.closed, hfirst.defined, fun hx => ?_⟩
  rcases List.mem_append.mp hx with hx | hx
  · exact hfirst.assigned hx
  · exact (hp.andThen hq.closed fun _ => hq).assigned hx

/-- An instruction that is no jump. -/
theorem single (hjump : i.target? = none) (hreads : x ∉ i.reads)
    (hms : x ∈ ms → i.dest? = some x) : Ready x [i] ms := by
  refine ⟨by simp [hjump], fun _ j hj => ?_, fun hx _ hthrough => ?_⟩
  · rwa [ControlFlow.visits_single (F := avoiding x) hjump hj]
  · have hfalls := ControlFlow.falls_of_through_single (F := avoiding x) hjump hthrough
    simp [avoiding, hms hx] at hfalls

/-- An instruction that is no jump and reads only operands of the code in front. -/
theorem concat (hp : Ready x p ns) (hjump : i.target? = none) (hreads : i.reads ⊆ ns)
    (hms : x ∈ ms → x ∈ ns ∨ i.dest? = some x) : Ready x (p ++ [i]) ms := by
  refine hp.andThen (by simp [hjump]) fun hx => single hjump (fun h => hx (hreads h)) fun h => ?_
  exact (hms h).resolve_left hx

/-- The code may compute its last value into another variable. -/
theorem retarget {dest last : Var} {rhs : Rhs} (h : Ready x (p ++ [.assign last rhs]) ns) :
    Ready x (p ++ [.assign dest rhs]) [] := by
  have hp : targets p ⊆ labels p := by simpa [Instr.target?, Instr.label?] using h.closed
  have hlabels (v : Var) : labels (p ++ [.assign v rhs]) = labels p := by simp [Instr.label?]
  refine ⟨?_, fun hnodup i hi => ?_, fun hx => absurd hx List.not_mem_nil⟩
  · rw [hlabels]
    simpa [Instr.target?] using hp
  · have hdefined := h.defined (by rwa [hlabels] at hnodup ⊢)
    have hlast : (avoiding x).Closed [.assign dest rhs] := List.nil_subset _
    rcases ControlFlow.Closed.visits_append (F := avoiding x) hp hlast hnodup hi with
      hi | ⟨hthrough, hi⟩
    · exact hdefined i (hi.append_right _)
    · rw [ControlFlow.visits_single (F := avoiding x) rfl hi]
      exact hdefined (.assign last rhs) (hthrough.visits _ [])

/-- A loop, whose condition is computed in front of each jump. -/
theorem loop {l b e : String} (hp : Ready x p o.names) (hq : Ready x q ns) :
    Ready x (.label l :: (p ++ (.branch o b :: .goto e :: .label b ::
      (q ++ [.goto l, .label e])))) [] := by
  refine ⟨?_, fun hnodup i hi => ?_, nofun⟩
  · intro k hk
    have hp := @hp.closed k
    have hq := @hq.closed k
    simp [Instr.target?, Instr.label?] at hk ⊢
    tauto
  · have hp' : (labels p).Nodup := nodup_labels_of_part ⟨[.label l], _, rfl⟩ hnodup
    have hq' : (labels q).Nodup := nodup_labels_of_part
      ⟨.label l :: (p ++ [.branch o b, .goto e, .label b]), [.goto l, .label e], by simp⟩ hnodup
    rcases ControlFlow.visits_loop (F := avoiding x) (c := .label l) (i := .branch o b)
      (g := .goto e) (b := .label b) (n := .goto l) (k := .label e) rfl rfl rfl rfl rfl rfl rfl rfl
      rfl rfl rfl hp.closed hq.closed hnodup hi with rfl | hi | ⟨hthrough, hi | hi⟩
    · simp [Instr.reads, Instr.vars]
    · exact hp.defined hp' i hi
    · have hx : x ∉ o.names := fun hx => hp.assigned hx hp' hthrough
      simp only [List.mem_cons, List.not_mem_nil, or_false] at hi
      rcases hi with rfl | rfl | rfl | rfl | rfl
      · exact hx
      all_goals simp [Instr.reads, Instr.vars]
    · exact hq.defined hq' i hi

/-- Two cases. No jump is needed behind the first one if no path leads through it. -/
theorem fork {l e : String} (hx : x ∉ o.names) (hp : Ready x p ns) (hq : Ready x q ms)
    (back : Code) (hback : (avoiding x).Through p → back = [.goto e]) (hback' : back ⊆ [.goto e])
    {ks : List String} (hks : x ∈ ks → x ∈ ns ∧ x ∈ ms) :
    Ready x (.branch o l :: (p ++ (back ++ .label l :: (q ++ [.label e])))) ks := by
  have split (hnodup : (labels (.branch o l :: (p ++ (back ++ .label l ::
      (q ++ [.label e]))))).Nodup) : (labels p).Nodup ∧ (labels q).Nodup :=
    ⟨nodup_labels_of_part ⟨[.branch o l], _, rfl⟩ hnodup, nodup_labels_of_part
      ⟨.branch o l :: (p ++ (back ++ [.label l])), [.label e], by simp⟩ hnodup⟩
  refine ⟨targets_fork_subset hp.closed hq.closed hback', fun hnodup i hi => ?_,
    fun hx hnodup hthrough => ?_⟩
  · rcases ControlFlow.visits_fork (F := avoiding x) (i := .branch o l) (j := .label l)
      (g := .goto e) (k := .label e) rfl rfl rfl rfl rfl rfl rfl hp.closed hq.closed hback hnodup hi
      with hi | hi | hi
    · simp only [List.mem_cons, List.not_mem_nil, or_false] at hi
      rcases hi with rfl | rfl | rfl | rfl
      · exact hx
      all_goals simp [Instr.reads, Instr.vars]
    · exact hp.defined (split hnodup).1 i hi
    · exact hq.defined (split hnodup).2 i hi
  · rcases ControlFlow.through_fork (F := avoiding x) (i := .branch o l) (j := .label l)
      (g := .goto e) (k := .label e) rfl rfl rfl rfl rfl rfl rfl hp.closed hq.closed hback hnodup
      hthrough with hthrough | hthrough
    · exact hp.assigned (hks hx).1 (split hnodup).1 hthrough
    · exact hq.assigned (hks hx).2 (split hnodup).2 hthrough

/-- A condition and two cases. -/
theorem condition {l e : String} (hcode : Ready x code o.names) (hp : Ready x p ns)
    (hq : Ready x q ms) (back : Code) (hback : (avoiding x).Through p → back = [.goto e])
    (hback' : back ⊆ [.goto e]) {ks : List String} (hks : x ∈ ks → x ∈ ns ∧ x ∈ ms) :
    Ready x (code ++ .branch o l :: (p ++ (back ++ .label l :: (q ++ [.label e])))) ks :=
  hcode.andThen (targets_fork_subset hp.closed hq.closed hback')
    fun hx => fork hx hp hq back hback hback' hks

end Ready

/-! ## Values -/

@[simp] theorem Operand.names_var (v : Var) : (Operand.var v).names = [v.name] := rfl

/-- The variables that operands are. -/
def operandNames (os : List Operand) : List String := os.flatMap Operand.names

@[simp] theorem operandNames_cons (o : Operand) (os : List Operand) :
    operandNames (o :: os) = o.names ++ operandNames os := List.flatMap_cons

@[simp] theorem operandNames_append (os os' : List Operand) :
    operandNames (os ++ os') = operandNames os ++ operandNames os' := List.flatMap_append

namespace Lower

/-- The code of a value is ready for `x`. -/
abbrev IsReady (x : String) (y : Lower Value) : Prop :=
  Yields y (fun v => Ready x v.code v.operand.names) fun _ => True

variable {y z : Lower Value} {ys : List (Lower Value)}

theorem assignTemp_ready {code : Code} {rhs : Rhs} (hcode : Ready x code ns)
    (hrhs : rhs.vars.map Var.name ⊆ ns) : IsReady x (assignTemp code rhs) :=
  .seq fun dest => .pure (hcode.concat rfl hrhs fun h => .inr (by
    rw [List.mem_singleton.mp h]
    rfl))

theorem toVar_ready {v : Value} (hv : Ready x v.code v.operand.names) :
    Yields (toVar v) (fun a => Ready x a.2 [a.1.name]) fun _ => True := by
  unfold toVar
  split
  · rename_i hoperand
    rw [hoperand] at hv
    exact .pure hv
  · refine .seq fun dest => .pure (hv.concat rfl (List.Subset.refl _) fun h => .inr ?_)
    rw [List.mem_singleton.mp h]
    rfl

theorem inOrder_ready (h : ∀ y ∈ ys, IsReady x y) :
    Yields (inOrder ys) (fun a => Ready x a.2 (operandNames a.1)) fun _ => True := by
  induction ys with
  | nil => exact .pure (.nil List.not_mem_nil)
  | cons y ys ih =>
    obtain ⟨hy, hys⟩ := List.forall_mem_cons.mp h
    refine hy.bind fun v hv => (ih hys).bind fun a ha => .pure ?_
    rw [operandNames_cons]
    exact hv.append ha

theorem storeFrom_ready {array : Var} (hx : x ≠ array.name) (index : Nat)
    (h : ∀ y ∈ ys, IsReady x y) :
    Yields (storeFrom array index ys) (Ready x · []) fun _ => True := by
  induction ys generalizing index with
  | nil => exact .pure (.nil List.not_mem_nil)
  | cons y ys ih =>
    obtain ⟨hy, hys⟩ := List.forall_mem_cons.mp h
    refine hy.bind fun v hv => (ih (index + 1) hys).bind fun code hcode => .pure ?_
    refine hv.andThen (by simpa [Instr.target?, Instr.label?] using hcode.closed) fun hv => ?_
    have hstore : Ready x [.arrayStore array (.int (.ofNat index)) v.operand] [] := by
      refine .single rfl ?_ fun hx => absurd hx List.not_mem_nil
      simpa [Instr.reads, Instr.vars, Operand.int, Operand.vars, Operand.names, hx] using hv
    exact hstore.andThen hcode.closed fun _ => hcode

theorem packArray_ready (t : IrType) (h : ∀ y ∈ ys, IsReady x y)
    (hregular : ∀ y ∈ ys, IsRegular y) :
    Yields (packArray t ys) (fun a => Ready x a.2 [a.1.name]) fun _ => True := by
  refine .seq fun array => ?_
  have hnew : Ready x [.assign array (.newArray (.int (.ofNat ys.length)) t)] [array.name] := by
    refine .single rfl (by simp [Instr.reads, Rhs.vars, Operand.int, Operand.vars]) fun hx => ?_
    rw [List.mem_singleton.mp hx]
    rfl
  by_cases hx : x = array.name
  · refine (storeFrom_regular array 0 hregular).bind fun code hcode => .pure ?_
    exact hnew.andThen hcode.closed fun hnot => absurd (List.mem_singleton.mpr hx) hnot
  · refine (storeFrom_ready hx 0 h).bind fun code hcode => .pure ?_
    exact hnew.andThen hcode.closed fun hnot => hcode.mono fun h => absurd h hnot

/-- An operand is assigned to a variable. -/
theorem assign_ready {code : Code} {o : Operand} (hcode : Ready x code o.names) (dest : Var) :
    Ready x (code ++ [.assign dest (.single o)]) [dest.name] :=
  hcode.concat rfl (List.Subset.refl _) fun h => .inr (by rw [List.mem_singleton.mp h]; rfl)

theorem conjunction_ready (hy : IsReady x y) (hz : IsReady x z) : IsReady x (conjunction y z) := by
  refine .seq fun n => .seq fun result => hy.bind fun a ha => hz.bind fun b hb => .pure ?_
  have hfalse := assign_ready (x := x) (o := .bool false) (.nil List.not_mem_nil) result
  have hsecond := assign_ready hb result
  have h := ha.condition (l := "and_true_" ++ toString n) (e := "and_end_" ++ toString n) hfalse
    hsecond [.goto _] (fun _ => rfl) (List.Subset.refl _)
    (fun h : x ∈ [result.name] => ⟨h, h⟩)
  simpa only [List.append_assoc, List.cons_append, List.nil_append, Operand.names_var] using h

theorem disjunction_ready (hy : IsReady x y) (hz : IsReady x z) : IsReady x (disjunction y z) := by
  refine .seq fun n => .seq fun result => hy.bind fun a ha => hz.bind fun b hb => .pure ?_
  have htrue := assign_ready (x := x) (o := .bool true) (.nil List.not_mem_nil) result
  have hsecond := assign_ready hb result
  have h := ha.condition (l := "or_true_" ++ toString n) (e := "or_end_" ++ toString n) hsecond
    htrue [.goto _] (fun _ => rfl) (List.Subset.refl _)
    (fun h : x ∈ [result.name] => ⟨h, h⟩)
  simpa only [List.append_assoc, List.cons_append, List.nil_append, Operand.names_var] using h

theorem binary_ready (op : BinaryOp) (hy : IsReady x y) (hz : IsReady x z) :
    IsReady x (binary op y z) := by
  have hvalue (op' : BinOp) : IsReady x (do
      let a ← y
      let b ← z
      assignTemp (a.code ++ b.code) (.binary op' a.operand b.operand)) := by
    refine hy.bind fun a ha => hz.bind fun b hb => assignTemp_ready (ha.append hb) ?_
    rw [Rhs.vars, List.map_append]
    exact List.Subset.refl _
  cases op with
  | and => exact conjunction_ready hy hz
  | or => exact disjunction_ready hy hz
  | _ => exact hvalue _

end Lower

end Ir

namespace Scope

open Lower

variable {sc : Scope} {x : String}

/-! ## Expressions -/

theorem lowerArguments_ready (receiver : Node) (method : String) (arguments : List Node)
    {values : List (Lower Value)} (h : ∀ y ∈ values, IsReady x y)
    (hregular : ∀ y ∈ values, IsRegular y) :
    Yields (sc.lowerArguments receiver method arguments values)
      (fun a => Ready x a.2 (operandNames a.1)) fun _ => True := by
  rw [lowerArguments_eq]
  split
  · rename_i k t hpacking
    refine (inOrder_ready fun y hy => h y (List.mem_of_mem_take hy)).bind fun a ha => ?_
    refine (packArray_ready t (fun y hy => h y (List.mem_of_mem_drop hy))
      (fun y hy => hregular y (List.mem_of_mem_drop hy))).bind fun b hb => .pure ?_
    rw [operandNames_append]
    exact ha.append hb
  · exact inOrder_ready h

theorem lowerCall_ready (t : IrType) (receiver : Node) (method : String) (arguments : List Node)
    {target : Lower Value} {values : List (Lower Value)} (htarget : IsReady x target)
    (h : ∀ y ∈ values, IsReady x y) (hregular : ∀ y ∈ values, IsRegular y) :
    Yields (sc.lowerCall t receiver method arguments target values)
      (fun a => Ready x a.2 (a.1.vars.map Var.name)) fun _ => True := by
  have harguments := sc.lowerArguments_ready receiver method arguments h hregular
  have hnames (c : Call) : c.vars.map Var.name = c.target.names ++ operandNames c.arguments := by
    rw [Call.vars, List.map_append, List.map_flatMap]
    rfl
  unfold lowerCall
  split
  · simp only [pure_bind]
    refine harguments.bind fun a ha => .pure ?_
    rw [hnames]
    exact ha
  · simp only [pure_bind]
    refine htarget.bind fun v hv => harguments.bind fun a ha => .pure ?_
    rw [hnames]
    exact hv.append ha

theorem lowerEach_ready {ns : List Node} (h : ∀ n ∈ ns, ∀ d, IsReady x (sc.lowerExpr d n))
    (ds : List Ty) : ∀ y ∈ sc.lowerEach ds ns, IsReady x y := by
  induction ns generalizing ds with
  | nil => exact fun _ hy => nomatch hy
  | cons n ns ih =>
    obtain ⟨hn, hns⟩ := List.forall_mem_cons.mp h
    exact List.forall_mem_cons.mpr ⟨hn _, ih hns ds.tail⟩

section Free

variable (hx : ∀ b, sc.lookup? x = some b → b.isMethodVariable = false)

include hx

theorem lowerName_ready (name : String) (p : Position) : IsReady x (sc.lowerName name p) := by
  have hvar {b : Binding} (hb : sc.lookup? name = some b) (hvar : b.isMethodVariable = true)
      (t : IrType) : Ready x [] (Operand.var ⟨name, t⟩).names := by
    refine .nil fun h => ?_
    obtain rfl := List.mem_singleton.mp h
    simp [hx b hb] at hvar
  unfold lowerName
  split
  · exact .pure (.nil List.not_mem_nil)
  · exact .pure (hvar ‹_› rfl _)
  · exact .pure (hvar ‹_› rfl _)
  · exact assignTemp_ready (.nil List.not_mem_nil) (List.Subset.refl _)
  · exact .throw trivial

/-- **The code for an expression is ready for what is no variable of the method.** -/
theorem lowerExpr_ready (n : Node) (d : Ty) : IsReady x (sc.lowerExpr d n) := by
  induction n using Node.induction generalizing d with
  | step n ih =>
    obtain ⟨i, p, k⟩ := n
    have hregular (ns : List Node) (ds : List Ty) : ∀ y ∈ sc.lowerEach ds ns, IsRegular y :=
      sc.lowerEach_regular (fun c _ => sc.lowerExpr_regular c) ds
    cases k with
    | program | importDecl | classDecl | varDecl | methodDecl | param | assign | arrayAssign
    | returning | ifElse | whileLoop | block | exprStmt => exact .throw trivial
    | intLit | boolLit | this => exact .pure (.nil List.not_mem_nil)
    | varRef name => exact lowerName_ready hx name p
    | paren inner => exact ih inner List.mem_cons_self d
    | binary op left right =>
      exact binary_ready op (ih left (by simp [Node.children, Kind.children]) _)
        (ih right (by simp [Node.children, Kind.children]) _)
    | unary op operand =>
      cases op
      exact (ih operand List.mem_cons_self _).bind fun v hv =>
        assignTemp_ready hv (List.Subset.refl _)
    | newObject className =>
      have hobject : IsReady x (assignTemp [] (.newObject className)) :=
        assignTemp_ready (.nil List.not_mem_nil) (List.Subset.refl _)
      refine hobject.bind fun v hv => .pure (hv.concat rfl ?_ .inl)
      simp [Instr.reads, Instr.vars, Call.vars, Call.construct, Operand.names]
    | newArray element size =>
      exact (ih size List.mem_cons_self _).bind fun v hv =>
        assignTemp_ready hv (List.Subset.refl _)
    | arrayAccess array index =>
      refine (ih array (by simp [Node.children, Kind.children]) _).bind fun v hv => ?_
      refine (toVar_ready hv).bind fun a ha => ?_
      refine (ih index (by simp [Node.children, Kind.children]) _).bind fun j hj => ?_
      exact assignTemp_ready (ha.append hj) (List.Subset.refl _)
    | arrayLength array =>
      refine (ih array List.mem_cons_self _).bind fun v hv => ?_
      exact (toVar_ready hv).bind fun a ha => assignTemp_ready ha (List.Subset.refl _)
    | arrayLit elements =>
      have heach := lowerEach_ready ih (sc.elementDemands elements)
      exact (packArray_ready _ heach (hregular _ _)).bind fun a ha => .pure ha
    | call receiver method arguments =>
      have heach := lowerEach_ready (fun c hc => ih c (List.mem_cons_of_mem _ hc))
        (sc.argumentDemands receiver method arguments)
      rw [lowerExpr_call]
      refine (lowerCall_ready _ receiver method arguments (ih receiver List.mem_cons_self _) heach
        (hregular _ _)).bind ?_
      rintro ⟨c, code⟩ hcode
      by_cases hvoid : c.returnType = .void
      · simp only [hvoid, if_true]
        exact (Yields.throw (P := fun _ => False) trivial).bind fun _ h => h.elim
      · simp only [hvoid, if_false]
        exact assignTemp_ready hcode (List.Subset.refl _)

/-! ## Statements -/

omit hx in
theorem lowerAssign_ready {y : Lower Value} (hy : IsReady x y) (target : String) (p : Position) :
    Yields (sc.lowerAssign target p y) (Ready x · []) fun _ => True := by
  refine hy.bind fun v hv => ?_
  have hassign (dest : Var) : Ready x ((retarget? dest v).getD
      (v.code ++ [.assign dest (.single v.operand)])) [] := by
    cases hretarget : retarget? dest v with
    | none => exact hv.concat rfl (List.Subset.refl _) nofun
    | some code =>
      obtain ⟨front, last, rhs, rfl, rfl⟩ := retarget?_eq_some hretarget
      exact hv.retarget
  split
  · exact .pure (hassign _)
  · exact .pure (hassign _)
  · exact .pure (hv.concat rfl (List.Subset.refl _) nofun)
  · exact .throw trivial
  · exact .throw trivial

theorem lowerArrayName_ready (target : String) (p : Position) :
    Yields (sc.lowerArrayName target p) (fun a => Ready x a.2 [a.1.name]) fun _ => True := by
  have hvar {b : Binding} (hb : sc.lookup? target = some b) (hvar : b.isMethodVariable = true) :
      Ready x [] [target] := by
    refine .nil fun h => ?_
    obtain rfl := List.mem_singleton.mp h
    simp [hx b hb] at hvar
  unfold lowerArrayName
  split
  · exact .pure (hvar ‹_› rfl)
  · exact .pure (hvar ‹_› rfl)
  · refine .seq fun dest => .pure (.single rfl List.not_mem_nil fun h => ?_)
    rw [List.mem_singleton.mp h]
    rfl
  · exact .throw trivial
  · exact .throw trivial

theorem lowerDropped_ready (n : Node) :
    Yields (sc.lowerDropped n) (Ready x · []) fun _ => True := by
  induction n using Node.induction with
  | step n ih =>
    obtain ⟨i, p, k⟩ := n
    cases k with
    | paren inner => exact ih inner List.mem_cons_self
    | call receiver method arguments =>
      have heach (ds : List Ty) : ∀ y ∈ sc.lowerEach ds arguments, IsReady x y :=
        lowerEach_ready (fun c _ => lowerExpr_ready hx c) ds
      have hregular (ds : List Ty) : ∀ y ∈ sc.lowerEach ds arguments, IsRegular y :=
        sc.lowerEach_regular (fun c _ => sc.lowerExpr_regular c) ds
      rw [lowerDropped_call]
      exact (lowerCall_ready _ receiver method arguments (lowerExpr_ready hx receiver _)
        (heach _) (hregular _)).bind fun _ hcode =>
          .pure (hcode.concat rfl (List.Subset.refl _) nofun)
    | _ => exact (lowerExpr_ready hx _ .void).bind fun v hv => .pure (hv.mono nofun)

omit hx in
theorem lowerStmts_ready {ns : List Node}
    (h : ∀ n ∈ ns, Yields (sc.lowerStmt n) (Ready x · []) fun _ => True) :
    Yields (sc.lowerStmts ns) (Ready x · []) fun _ => True := by
  induction ns with
  | nil => exact .pure (.nil List.not_mem_nil)
  | cons n ns ih =>
    obtain ⟨hn, hns⟩ := List.forall_mem_cons.mp h
    exact hn.bind fun p hp => (ih hns).bind fun q hq => .pure (hp.append hq)

/-- **The code for a statement is ready for what is no variable of the method.** -/
theorem lowerStmt_ready (n : Node) : Yields (sc.lowerStmt n) (Ready x · []) fun _ => True := by
  induction n using Node.induction with
  | step n ih =>
    obtain ⟨i, p, k⟩ := n
    cases k with
    | assign target value => exact lowerAssign_ready (lowerExpr_ready hx value _) target p
    | arrayAssign target index value =>
      refine (lowerArrayName_ready hx target p).bind fun a ha => ?_
      refine (lowerExpr_ready hx index _).bind fun j hj => ?_
      refine (lowerExpr_ready hx value _).bind fun v hv => .pure ?_
      refine ((ha.append hj).append hv).concat rfl ?_ nofun
      simp [Instr.reads, Instr.vars, Operand.names]
    | returning value =>
      cases value with
      | none => exact .pure (.single rfl List.not_mem_nil nofun)
      | some value =>
        exact (lowerExpr_ready hx value _).bind fun v hv =>
          .pure (hv.concat rfl (List.Subset.refl _) nofun)
    | ifElse c thenBranch elseBranch =>
      have hthen := ih thenBranch (by simp [Node.children, Kind.children])
      cases elseBranch with
      | none =>
        refine .seq fun n => (lowerExpr_ready hx c _).bind fun v hv => ?_
        refine hthen.bind fun thenCode ht => .pure ?_
        have h := hv.condition (l := "if_then_" ++ toString n) (e := "if_end_" ++ toString n)
          (.nil List.not_mem_nil) ht [.goto _] (fun _ => rfl) (List.Subset.refl _)
          (fun h : x ∈ [] => ⟨h, h⟩)
        simpa only [List.append_assoc, List.cons_append, List.nil_append] using h
      | some elseBranch =>
        have helse := ih elseBranch (by simp [Node.children, Kind.children])
        refine .seq fun n => (lowerExpr_ready hx c _).bind fun v hv => ?_
        refine helse.bind fun elseCode he => hthen.bind fun thenCode ht => .pure ?_
        simp only [List.append_assoc, List.cons_append, List.nil_append]
        rw [closeWith_cons_append _ _ _ _ rfl]
        split
        · refine hv.condition he ht [] (fun h => ?_) (List.nil_subset _)
            fun h : x ∈ [] => ⟨h, h⟩
          exact absurd h (not_through_of_endsInJump ‹_›)
        · exact hv.condition he ht [.goto _] (fun _ => rfl) (List.Subset.refl _)
            fun h : x ∈ [] => ⟨h, h⟩
    | whileLoop c body =>
      have hbody := ih body (by simp [Node.children, Kind.children])
      refine .seq fun n => (lowerExpr_ready hx c _).bind fun v hv => ?_
      refine hbody.bind fun bodyCode hb => .pure ?_
      have h := Ready.loop (l := "while_cond_" ++ toString n) (b := "while_body_" ++ toString n)
        (e := "while_end_" ++ toString n) hv hb
      simpa only [List.append_assoc, List.cons_append, List.nil_append] using h
    | block statements => exact lowerStmts_ready ih
    | exprStmt e => exact lowerDropped_ready hx e
    | _ => exact .throw trivial

end Free

end Scope

end MiniJava
