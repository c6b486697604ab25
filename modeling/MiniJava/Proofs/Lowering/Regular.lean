import MiniJava.Proofs.Lowering.Program
import MiniJava.Proofs.Lowering.Typed
import MiniJava.Proofs.Semantics.ControlFlow

/-!
# The shape of lowered code

Some facts hold of the code of any tree, whether the checks accept it or not: the labels are those of
constructs, no variable is assigned the result of a call that has none, and each jump of a statement
leads to a label of the same statement. Code of this shape is regular (`Ir.Regular`).
-/

namespace MiniJava

open Ir

namespace Ir

/-- The label to which an instruction may jump. -/
def Instr.target? : Instr → Option String
  | goto target | branch _ target => some target
  | _ => none

/-- How three-address code passes control on. -/
def controlFlow : ControlFlow Instr := ⟨Instr.label?, Instr.target?, fun i => !i.isTerminator⟩

/-- The labels to which code jumps. -/
def targets (code : Code) : List String := code.filterMap Instr.target?

/-- Labels are those of constructs, and what is assigned is a value. -/
def Instr.Tidy : Instr → Prop
  | assign _ (.call c) => c.returnType ≠ .void
  | goto target | branch _ target | label target => IsLabel target
  | _ => True

/-- The instructions are tidy, and their jumps lead to their labels. -/
structure Regular (code : Code) : Prop where
  tidy : ∀ i ∈ code, i.Tidy
  closed : targets code ⊆ labels code

variable {p q : Code} {i : Instr}

@[simp] theorem targets_nil : targets [] = [] := rfl

@[simp] theorem targets_append (p q : Code) : targets (p ++ q) = targets p ++ targets q :=
  List.filterMap_append

@[simp] theorem targets_cons (i : Instr) (p : Code) :
    targets (i :: p) = i.target?.toList ++ targets p := by
  unfold targets
  rw [List.filterMap_cons]
  cases i.target? <;> rfl

/-- The labels in code are those that label instructions define. -/
theorem mem_labels {l : String} : l ∈ labels p ↔ .label l ∈ p := by
  refine List.mem_filterMap.trans ⟨?_, fun h => ⟨_, h, rfl⟩⟩
  rintro ⟨i, hi, hlabel⟩
  cases i with
  | label name =>
    cases hlabel
    exact hi
  | _ => cases hlabel

namespace Regular

theorem nil : Regular [] := ⟨by simp, by simp⟩

theorem append (hp : Regular p) (hq : Regular q) : Regular (p ++ q) :=
  ⟨List.forall_mem_append.mpr ⟨hp.tidy, hq.tidy⟩,
    ControlFlow.closed_append (F := controlFlow) hp.closed hq.closed⟩

/-- An instruction that is no jump. -/
theorem single (hi : i.Tidy) (hjump : i.target? = none) : Regular [i] :=
  ⟨by simpa using hi, by simp [hjump]⟩

/-- An instruction that is no jump, in front. -/
theorem cons (hi : i.Tidy) (hjump : i.target? = none) (hp : Regular p) : Regular (i :: p) :=
  (single hi hjump).append hp

theorem concat (hp : Regular p) (hi : i.Tidy) (hjump : i.target? = none) : Regular (p ++ [i]) :=
  hp.append (.single hi hjump)

/-- Another variable may be assigned. -/
theorem assign {dest last : Var} {rhs : Rhs} (h : Regular (p ++ [.assign last rhs])) :
    Regular (p ++ [.assign dest rhs]) := by
  constructor
  · have htidy := List.forall_mem_append.mp h.tidy
    refine List.forall_mem_append.mpr ⟨htidy.1, List.forall_mem_singleton.mpr ?_⟩
    have hlast := List.forall_mem_singleton.mp htidy.2
    cases rhs <;> exact hlast
  · have hclosed := h.closed
    simpa [Instr.target?, Instr.label?] using hclosed

/-- The labels of regular code are those of constructs. -/
theorem isLabel {l : String} (hp : Regular p) (hl : l ∈ labels p) : IsLabel l :=
  hp.tidy _ (mem_labels.mp hl)

end Regular

/-! ## Values -/

namespace Lower

/-- The code of a value is regular. -/
abbrev IsRegular (x : Lower Value) : Prop := Yields x (fun v => Regular v.code) fun _ => True

variable {x y : Lower Value} {xs : List (Lower Value)}

theorem assignTemp_regular {code : Code} {rhs : Rhs} (hcode : Regular code)
    (hrhs : ∀ c, rhs = .call c → c.returnType ≠ .void) : IsRegular (assignTemp code rhs) := by
  refine .seq fun dest => .pure (hcode.concat ?_ rfl)
  cases rhs with
  | call c => exact hrhs c rfl
  | _ => trivial

theorem toVar_regular {v : Value} (hv : Regular v.code) :
    Yields (toVar v) (fun a => Regular a.2) fun _ => True := by
  unfold toVar
  split
  · exact .pure hv
  · exact .seq fun dest => .pure (hv.concat trivial rfl)

theorem inOrder_regular (h : ∀ x ∈ xs, IsRegular x) :
    Yields (inOrder xs) (fun a => Regular a.2) fun _ => True := by
  induction xs with
  | nil => exact .pure .nil
  | cons x xs ih =>
    obtain ⟨hx, hxs⟩ := List.forall_mem_cons.mp h
    exact hx.bind fun v hv => (ih hxs).bind fun a ha => .pure (hv.append ha)

theorem storeFrom_regular (array : Var) (index : Nat) (h : ∀ x ∈ xs, IsRegular x) :
    Yields (storeFrom array index xs) Regular fun _ => True := by
  induction xs generalizing index with
  | nil => exact .pure .nil
  | cons x xs ih =>
    obtain ⟨hx, hxs⟩ := List.forall_mem_cons.mp h
    refine hx.bind fun v hv => (ih (index + 1) hxs).bind fun code hcode => .pure ?_
    exact hv.append (.cons (i := .arrayStore ..) trivial rfl hcode)

theorem packArray_regular (t : IrType) (h : ∀ x ∈ xs, IsRegular x) :
    Yields (packArray t xs) (fun a => Regular a.2) fun _ => True :=
  .seq fun array => (storeFrom_regular array 0 h).bind fun _ hcode =>
    .pure (.cons (i := .assign ..) trivial rfl hcode)

theorem logical_regular {k : LabelKind} {code : Nat → Var → Value → Value → Code}
    (hx : IsRegular x) (hy : IsRegular y)
    (hcode : ∀ n result a b, Regular a.code → Regular b.code → Regular (code n result a b)) :
    IsRegular (do
      let n ← label k
      let result ← temp .boolean
      let a ← x
      let b ← y
      return ⟨.var result, code n result a b⟩) :=
  .seq fun n => .seq fun result => hx.bind fun a ha => hy.bind fun b hb =>
    .pure (hcode n result a b ha hb)

theorem conjunction_regular (hx : IsRegular x) (hy : IsRegular y) :
    IsRegular (conjunction x y) := by
  refine logical_regular (k := .and) hx hy fun n result a b ha hb => ⟨?_, fun l hl => ?_⟩
  · have htrue : IsLabel ("and_true_" ++ toString n) := LabelKind.isLabel (k := .and) (by decide) n
    have hend : IsLabel ("and_end_" ++ toString n) := LabelKind.isLabel (k := .and) (by decide) n
    simp only [List.forall_mem_append, List.forall_mem_cons]
    exact ⟨⟨⟨ha.tidy, htrue, trivial, hend, htrue, by simp⟩, hb.tidy⟩, trivial, hend, by simp⟩
  · have ha := @ha.closed l
    have hb := @hb.closed l
    simp [Instr.target?, Instr.label?] at hl ⊢
    tauto

theorem disjunction_regular (hx : IsRegular x) (hy : IsRegular y) :
    IsRegular (disjunction x y) := by
  refine logical_regular (k := .or) hx hy fun n result a b ha hb => ⟨?_, fun l hl => ?_⟩
  · have htrue : IsLabel ("or_true_" ++ toString n) := LabelKind.isLabel (k := .or) (by decide) n
    have hend : IsLabel ("or_end_" ++ toString n) := LabelKind.isLabel (k := .or) (by decide) n
    simp only [List.forall_mem_append, List.forall_mem_cons]
    exact ⟨⟨⟨ha.tidy, htrue, by simp⟩, hb.tidy⟩, trivial, hend, htrue, trivial, hend, by simp⟩
  · have ha := @ha.closed l
    have hb := @hb.closed l
    simp [Instr.target?, Instr.label?] at hl ⊢
    tauto

theorem binary_regular (op : BinaryOp) (hx : IsRegular x) (hy : IsRegular y) :
    IsRegular (binary op x y) := by
  have hvalue (op' : BinOp) : IsRegular (do
      let a ← x
      let b ← y
      assignTemp (a.code ++ b.code) (.binary op' a.operand b.operand)) :=
    hx.bind fun a ha => hy.bind fun b hb =>
      assignTemp_regular (ha.append hb) (by rintro _ ⟨⟩)
  cases op with
  | and => exact conjunction_regular hx hy
  | or => exact disjunction_regular hx hy
  | _ => exact hvalue _

end Lower

end Ir

namespace Scope

open Lower

variable (sc : Scope)

/-! ## Expressions -/

theorem lowerName_regular (name : String) (p : Position) : IsRegular (sc.lowerName name p) := by
  unfold lowerName
  split
  · exact .pure .nil
  · exact .pure .nil
  · exact .pure .nil
  · exact assignTemp_regular .nil (by rintro _ ⟨⟩)
  · exact .throw trivial

theorem lowerArguments_regular (receiver : Node) (method : String) (arguments : List Node)
    {values : List (Lower Value)} (h : ∀ x ∈ values, IsRegular x) :
    Yields (sc.lowerArguments receiver method arguments values) (fun a => Regular a.2)
      fun _ => True := by
  rw [lowerArguments_eq]
  split
  · rename_i k t hpacking
    refine (inOrder_regular fun x hx => h x (List.mem_of_mem_take hx)).bind fun a ha => ?_
    refine (packArray_regular t fun x hx => h x (List.mem_of_mem_drop hx)).bind fun b hb => ?_
    exact .pure (ha.append hb)
  · exact inOrder_regular h

theorem lowerCall_regular (t : IrType) (receiver : Node) (method : String) (arguments : List Node)
    {target : Lower Value} {values : List (Lower Value)} (htarget : IsRegular target)
    (h : ∀ x ∈ values, IsRegular x) :
    Yields (sc.lowerCall t receiver method arguments target values) (fun a => Regular a.2)
      fun _ => True := by
  have harguments := sc.lowerArguments_regular receiver method arguments h
  unfold lowerCall
  split
  · simp only [pure_bind]
    exact harguments.bind fun a ha => .pure ha
  · simp only [pure_bind]
    exact htarget.bind fun v hv => harguments.bind fun a ha => .pure (hv.append ha)

theorem lowerEach_regular {ns : List Node} (h : ∀ n ∈ ns, ∀ d, IsRegular (sc.lowerExpr d n))
    (ds : List Ty) : ∀ x ∈ sc.lowerEach ds ns, IsRegular x := by
  induction ns generalizing ds with
  | nil => exact fun _ hx => nomatch hx
  | cons n ns ih =>
    obtain ⟨hn, hns⟩ := List.forall_mem_cons.mp h
    exact List.forall_mem_cons.mpr ⟨hn _, ih hns ds.tail⟩

/-- **The code for an expression is regular.** -/
theorem lowerExpr_regular (n : Node) (d : Ty) : IsRegular (sc.lowerExpr d n) := by
  induction n using Node.induction generalizing d with
  | step n ih =>
    obtain ⟨i, p, k⟩ := n
    cases k with
    | program | importDecl | classDecl | varDecl | methodDecl | param | assign | arrayAssign
    | returning | ifElse | whileLoop | block | exprStmt => exact .throw trivial
    | intLit | boolLit | this => exact .pure .nil
    | varRef name => exact sc.lowerName_regular name p
    | paren inner => exact ih inner List.mem_cons_self d
    | binary op left right =>
      exact binary_regular op (ih left (by simp [Node.children, Kind.children]) _)
        (ih right (by simp [Node.children, Kind.children]) _)
    | unary op operand =>
      cases op
      exact (ih operand List.mem_cons_self _).bind fun v hv =>
        assignTemp_regular hv (by rintro _ ⟨⟩)
    | newObject className =>
      have hobject : IsRegular (assignTemp [] (.newObject className)) :=
        assignTemp_regular .nil (by rintro _ ⟨⟩)
      exact hobject.bind fun v hv => .pure (hv.concat trivial rfl)
    | newArray element size =>
      exact (ih size List.mem_cons_self _).bind fun v hv =>
        assignTemp_regular hv (by rintro _ ⟨⟩)
    | arrayAccess array index =>
      refine (ih array (by simp [Node.children, Kind.children]) _).bind fun v hv => ?_
      refine (toVar_regular hv).bind fun x hx => ?_
      refine (ih index (by simp [Node.children, Kind.children]) _).bind fun j hj => ?_
      exact assignTemp_regular (hx.append hj) (by rintro _ ⟨⟩)
    | arrayLength array =>
      refine (ih array List.mem_cons_self _).bind fun v hv => ?_
      exact (toVar_regular hv).bind fun x hx => assignTemp_regular hx (by rintro _ ⟨⟩)
    | arrayLit elements =>
      have heach := sc.lowerEach_regular (fun c hc => ih c hc) (sc.elementDemands elements)
      exact (packArray_regular _ heach).bind fun a ha => .pure ha
    | call receiver method arguments =>
      have heach := sc.lowerEach_regular (fun c hc => ih c (List.mem_cons_of_mem _ hc))
        (sc.argumentDemands receiver method arguments)
      rw [lowerExpr_call]
      refine (sc.lowerCall_regular _ receiver method arguments
        (ih receiver List.mem_cons_self _) heach).bind ?_
      rintro ⟨c, code⟩ hcode
      by_cases hvoid : c.returnType = .void
      · simp only [hvoid, if_true]
        exact (Yields.throw (P := fun _ => False) trivial).bind fun _ h => h.elim
      · simp only [hvoid, if_false]
        refine assignTemp_regular hcode fun c' hc' => ?_
        cases hc'
        exact hvoid

/-! ## Statements -/

theorem lowerAssign_regular {x : Lower Value} (hx : IsRegular x) (target : String)
    (p : Position) : Yields (sc.lowerAssign target p x) Regular fun _ => True := by
  refine hx.bind fun v hv => ?_
  have hassign (dest : Var) : Regular ((retarget? dest v).getD
      (v.code ++ [.assign dest (.single v.operand)])) := by
    cases hretarget : retarget? dest v with
    | none => exact hv.concat trivial rfl
    | some code =>
      obtain ⟨front, last, rhs, rfl, rfl⟩ := retarget?_eq_some hretarget
      exact hv.assign
  split
  · exact .pure (hassign _)
  · exact .pure (hassign _)
  · exact .pure (hv.concat trivial rfl)
  · exact .throw trivial
  · exact .throw trivial

theorem lowerArrayName_regular (target : String) (p : Position) :
    Yields (sc.lowerArrayName target p) (fun a => Regular a.2) fun _ => True := by
  unfold lowerArrayName
  split
  · exact .pure .nil
  · exact .pure .nil
  · exact .seq fun dest => .pure (.single trivial rfl)
  · exact .throw trivial
  · exact .throw trivial

theorem lowerDropped_regular (n : Node) : Yields (sc.lowerDropped n) Regular fun _ => True := by
  induction n using Node.induction with
  | step n ih =>
    obtain ⟨i, p, k⟩ := n
    cases k with
    | paren inner => exact ih inner List.mem_cons_self
    | call receiver method arguments =>
      have heach : ∀ x ∈ sc.lowerEach (sc.argumentDemands receiver method arguments) arguments,
          IsRegular x :=
        sc.lowerEach_regular (fun c _ => sc.lowerExpr_regular c) _
      rw [lowerDropped_call]
      exact (sc.lowerCall_regular _ receiver method arguments (sc.lowerExpr_regular receiver _)
        heach).bind fun _ hcode => .pure (hcode.concat trivial rfl)
    | _ => exact (sc.lowerExpr_regular _ .void).bind fun v hv => .pure hv

theorem lowerStmts_regular {ns : List Node}
    (h : ∀ n ∈ ns, Yields (sc.lowerStmt n) Regular fun _ => True) :
    Yields (sc.lowerStmts ns) Regular fun _ => True := by
  induction ns with
  | nil => exact .pure .nil
  | cons n ns ih =>
    obtain ⟨hn, hns⟩ := List.forall_mem_cons.mp h
    exact hn.bind fun p hp => (ih hns).bind fun q hq => .pure (hp.append hq)

/-- **The code for a statement is regular.** -/
theorem lowerStmt_regular (n : Node) : Yields (sc.lowerStmt n) Regular fun _ => True := by
  induction n using Node.induction with
  | step n ih =>
    obtain ⟨i, p, k⟩ := n
    cases k with
    | assign target value => exact sc.lowerAssign_regular (sc.lowerExpr_regular value _) target p
    | arrayAssign target index value =>
      refine (sc.lowerArrayName_regular target p).bind fun a ha => ?_
      refine (sc.lowerExpr_regular index _).bind fun j hj => ?_
      refine (sc.lowerExpr_regular value _).bind fun v hv => .pure ?_
      exact ((ha.append hj).append hv).concat trivial rfl
    | returning value =>
      cases value with
      | none => exact .pure (.single trivial rfl)
      | some value =>
        exact (sc.lowerExpr_regular value _).bind fun v hv => .pure (hv.concat trivial rfl)
    | ifElse c thenBranch elseBranch =>
      have hthen := ih thenBranch (by simp [Node.children, Kind.children])
      cases elseBranch with
      | none =>
        refine .seq fun n => (sc.lowerExpr_regular c _).bind fun v hv => ?_
        refine hthen.bind fun thenCode ht => .pure ⟨?_, fun l hl => ?_⟩
        · have hthenLabel : IsLabel ("if_then_" ++ toString n) :=
            LabelKind.isLabel (k := .ifElse) (by decide) n
          have hendLabel : IsLabel ("if_end_" ++ toString n) :=
            LabelKind.isLabel (k := .ifElse) (by decide) n
          simp only [List.forall_mem_append, List.forall_mem_cons]
          exact ⟨⟨⟨hv.tidy, hthenLabel, hendLabel, hthenLabel, by simp⟩, ht.tidy⟩, hendLabel,
            by simp⟩
        · have hv := @hv.closed l
          have ht := @ht.closed l
          simp [Instr.target?, Instr.label?] at hl ⊢
          tauto
      | some elseBranch =>
        have helse := ih elseBranch (by simp [Node.children, Kind.children])
        refine .seq fun n => (sc.lowerExpr_regular c _).bind fun v hv => ?_
        refine helse.bind fun elseCode he => hthen.bind fun thenCode ht => .pure ?_
        have hthenLabel : IsLabel ("if_then_" ++ toString n) :=
          LabelKind.isLabel (k := .ifElse) (by decide) n
        have hendLabel : IsLabel ("if_end_" ++ toString n) :=
          LabelKind.isLabel (k := .ifElse) (by decide) n
        simp only [List.append_assoc, List.cons_append, List.nil_append]
        rw [closeWith_cons_append _ _ _ _ rfl]
        refine ⟨?_, fun l hl => ?_⟩
        · split <;> simp only [List.forall_mem_append, List.forall_mem_cons]
          · exact ⟨hv.tidy, hthenLabel, he.tidy, hthenLabel, ht.tidy, hendLabel, by simp⟩
          · exact ⟨hv.tidy, hthenLabel, he.tidy, hendLabel, hthenLabel, ht.tidy, hendLabel, by simp⟩
        · have hv := @hv.closed l
          have he := @he.closed l
          have ht := @ht.closed l
          split at hl <;> split <;> simp [Instr.target?, Instr.label?] at hl ⊢ <;> tauto
    | whileLoop c body =>
      refine .seq fun n => (sc.lowerExpr_regular c _).bind fun v hv => ?_
      refine (ih body (by simp [Node.children, Kind.children])).bind fun bodyCode hb =>
        .pure ⟨?_, fun l hl => ?_⟩
      · have hcond : IsLabel ("while_cond_" ++ toString n) :=
          LabelKind.isLabel (k := .whileLoop) (by decide) n
        have hbody : IsLabel ("while_body_" ++ toString n) :=
          LabelKind.isLabel (k := .whileLoop) (by decide) n
        have hend : IsLabel ("while_end_" ++ toString n) :=
          LabelKind.isLabel (k := .whileLoop) (by decide) n
        simp only [List.forall_mem_append, List.forall_mem_cons]
        exact ⟨⟨⟨⟨⟨hcond, by simp⟩, hv.tidy⟩, hbody, hend, hbody, by simp⟩, hb.tidy⟩, hcond, hend,
          by simp⟩
      · have hv := @hv.closed l
        have hb := @hb.closed l
        simp [Instr.target?, Instr.label?] at hl ⊢
        tauto
    | block statements => exact sc.lowerStmts_regular ih
    | exprStmt e => exact sc.lowerDropped_regular e
    | _ => exact .throw trivial

end Scope

/-! ## Methods -/

/-- The code of a method without result ends with a return; that of any other method is the code of
its body. -/
theorem lowerMethod_shape {scopeOf : MethodHead → Scope} {n : Node} {s s' : Supply} {m : Method}
    (h : (lowerMethod scopeOf n).run s = .ok (m, s')) :
    ∃ head params locals body code, n.kind = .methodDecl head params locals body ∧
      ((scopeOf head).lowerStmts body).run s = .ok (code, s') ∧
      m.returnType = .ofTy (.ofExpr head.returnType) ∧ Regular m.code ∧
      labels m.code = labels code ∧
      (m.returnType = .void ∧ (∃ front o, m.code = front ++ [.ret o]) ∨
        m.returnType ≠ .void ∧ m.code = code) := by
  unfold lowerMethod at h
  split at h
  · rename_i head params locals body hkind
    obtain ⟨vs, s₁, hvs, h⟩ := run_bind_eq_ok.mp h
    simp only at h
    obtain ⟨code, s₂, hcode, h⟩ := run_bind_eq_ok.mp h
    obtain ⟨rfl, rfl⟩ := run_pure_eq_ok.mp h
    obtain ⟨-, rfl⟩ := mapM_lowerParam_eq_ok hvs
    have hregular : Regular code :=
      ((scopeOf head).lowerStmts_regular fun n _ => (scopeOf head).lowerStmt_regular n).of_run hcode
    refine ⟨head, params, locals, body, code, hkind, hcode, rfl, ?_⟩
    by_cases hvoid : IrType.ofTy (.ofExpr head.returnType) = .void
    · have hadded : Regular (code ++ [.ret none]) := hregular.concat trivial rfl
      have hlabels : labels (code ++ [.ret none]) = labels code := by simp [Instr.label?]
      cases hlast : code.getLast? with
      | none => simp [hvoid, hadded, hlabels]
      | some i =>
        cases i with
        | ret o =>
          obtain ⟨front, rfl⟩ := List.getLast?_eq_some_iff.mp hlast
          simp [hvoid, hregular]
        | _ => simp [hvoid, hadded, hlabels]
    · simp only [hvoid, decide_false, Bool.false_and, Bool.false_eq_true, if_false]
      exact ⟨hregular, trivial, .inr ⟨hvoid, trivial⟩⟩
  · exact absurd h run_throw_ne_ok

section Lower

variable {table : SymbolTable} {root : Node} {unit : ClassUnit} {m : Method}

/-- **The code of every method is regular.** -/
theorem regular_of_lower (h : lower table root = .ok unit) (hm : m ∈ unit.methods) :
    Regular m.code := by
  obtain ⟨n, hn, s, s', hs, hrun⟩ := exists_of_forall₂ (forall₂_lowerMethod h) hm
  obtain ⟨head, params, locals, body, code, -, -, -, hregular, -⟩ := lowerMethod_shape hrun
  exact hregular

/-- The labels of a method are issued while it is lowered. -/
theorem issues_of_lowerMethod {n : Node} {s s' : Supply}
    (hs : s.reserved = (Supply.ofTable table).reserved)
    (h : (lowerMethod (Scope.ofMethod table) n).run s = .ok (m, s')) :
    s.Issues s' (labels m.code) := by
  obtain ⟨head, params, locals, body, code, -, hcode, -, -, hlabels, -⟩ := lowerMethod_shape h
  rw [hlabels]
  exact ((Scope.ofMethod table head).lowerStmts_makes
    (fun n _ => (Scope.ofMethod table head).lowerStmt_makes (reserves_ofTable table head) n)
    s code s' hs hcode).issues

/-- **The labels of a method differ.** -/
theorem nodup_labels_of_lowerMethod {n : Node} {s s' : Supply}
    (hs : s.reserved = (Supply.ofTable table).reserved)
    (h : (lowerMethod (Scope.ofMethod table) n).run s = .ok (m, s')) : (labels m.code).Nodup :=
  (issues_of_lowerMethod hs h).nodup

/-- The labels of methods are issued one after the other. -/
theorem issues_of_mapM_lowerMethod {ns : List Node} {ms : List Method} {s s' : Supply}
    (hs : s.reserved = (Supply.ofTable table).reserved)
    (h : (ns.mapM (lowerMethod (Scope.ofMethod table))).run s = .ok (ms, s')) :
    s.Issues s' (ms.flatMap fun m => labels m.code) := by
  induction ns generalizing s ms with
  | nil =>
    cases h
    exact .refl _
  | cons n ns ih =>
    rw [List.mapM_cons] at h
    obtain ⟨m, s₁, hm, h⟩ := run_bind_eq_ok.mp h
    obtain ⟨ms', s₂, hms, h⟩ := run_bind_eq_ok.mp h
    obtain ⟨rfl, rfl⟩ := run_pure_eq_ok.mp h
    have hissues := issues_of_lowerMethod hs hm
    exact hissues.append (ih (hissues.precedes.reserved.trans hs) hms)

/-- **No label is in a unit twice.** -/
theorem nodup_labels_of_lower (h : lower table root = .ok unit) :
    (unit.methods.flatMap fun m => labels m.code).Nodup := by
  obtain ⟨s', hrun⟩ := lower_eq_ok h
  exact (issues_of_mapM_lowerMethod rfl hrun).nodup

end Lower

end MiniJava
