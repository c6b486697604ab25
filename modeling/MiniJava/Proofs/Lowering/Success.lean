import MiniJava.Proofs.Lowering.ExprType
import MiniJava.Proofs.Lowering.Program
import MiniJava.Proofs.Typing.Sites

/-!
# Which accepted programs have three-address code

The checks keep calls without result out of most places where a value is needed, but not out of all:
nothing is known of the parameters of other classes, and the size and the elements of an array are
not looked at. They also let a name that means an import be assigned a value of the class it names.

`Scope.usesValues` is what a node has to fulfil besides the checks. An accepted program has
three-address code exactly if all nodes of its methods do (`exists_lower_eq_ok_iff`). Some do not
(`lower_ne_ok_returned`).
-/

namespace MiniJava

open Ir

/-- The failure is a call without result where a value is needed, or an import that is assigned. -/
def Ir.LoweringError.IsMisuse (e : LoweringError) : Prop :=
  e.IsVoidValue ∨ ∃ name p, e = .invalidAssignTarget name p

/-- Only a call without result has no value. -/
theorem Ir.IrType.ofTy_eq_void {t : Ty} : IrType.ofTy t = .void ↔ t = .void := by
  constructor
  · intro h
    obtain ⟨name, isArray⟩ := t
    cases isArray with
    | true => cases h
    | false =>
      simp only [ofTy, Bool.false_eq_true, if_false, ofName] at h
      split at h <;> cases h
      rfl
  · rintro rfl
    rfl

/-! ## Lowerings that succeed under a condition -/

namespace Ir.Lower

variable {α β : Type} {x : Lower α} {f : α → Lower β} {b b' : Bool} {P : α → Prop}

/-- From any supply, the lowering succeeds if the condition holds, and else it fails for a
misuse. -/
def SucceedsIf (x : Lower α) (b : Bool) : Prop :=
  Yields x (fun _ => b = true) fun e => b = false ∧ e.IsMisuse

namespace SucceedsIf

protected theorem pure (a : α) : SucceedsIf (pure a) true := Yields.pure rfl

protected theorem throw {e : LoweringError} (h : e.IsMisuse) : SucceedsIf (throw e : Lower α) false :=
  Yields.throw ⟨rfl, h⟩

/-- Both parts have to succeed; the second may rely on what the first yields. -/
theorem bind_of_yields (hx : SucceedsIf x b) (hP : Yields x P fun _ => True)
    (hf : ∀ a, P a → SucceedsIf (f a) b') : SucceedsIf (x >>= f) (b && b') := by
  intro s
  rw [StateT.run_bind]
  have hx := hx s
  have hP := hP s
  cases hrun : x.run s with
  | error e =>
    rw [hrun] at hx
    obtain ⟨rfl, he⟩ := hx
    exact ⟨rfl, he⟩
  | ok p =>
    obtain ⟨a, s'⟩ := p
    rw [hrun] at hx hP
    subst hx
    exact hf a hP s'

protected theorem bind (hx : SucceedsIf x b) (hf : ∀ a, SucceedsIf (f a) b') :
    SucceedsIf (x >>= f) (b && b') :=
  hx.bind_of_yields (.always fun _ => trivial) fun a _ => hf a

/-- The second part always succeeds. -/
theorem andThen (hx : SucceedsIf x b) (hf : ∀ a, SucceedsIf (f a) true) :
    SucceedsIf (x >>= f) b := by
  have h := hx.bind hf
  rwa [Bool.and_true] at h

theorem mapM {as : List α} {f : α → Lower β} {c : α → Bool}
    (h : ∀ a ∈ as, SucceedsIf (f a) (c a)) : SucceedsIf (as.mapM f) (as.all c) := by
  induction as with
  | nil => exact .pure []
  | cons a as ih =>
    obtain ⟨ha, has⟩ := List.forall_mem_cons.mp h
    rw [List.mapM_cons]
    exact ha.bind fun _ => (ih has).andThen fun _ => .pure _

end SucceedsIf

variable {y : Lower Value} {xs : List (Lower Value)} {bs : List Bool}

theorem temp_succeeds (t : IrType) : SucceedsIf (temp t) true := temp_yields t |>.mono fun _ _ => rfl

theorem label_succeeds (k : LabelKind) : SucceedsIf (label k) true :=
  label_yields k |>.mono fun _ _ => rfl

theorem assignTemp_succeeds (code : Code) (rhs : Rhs) : SucceedsIf (assignTemp code rhs) true :=
  (temp_succeeds rhs.type).andThen fun _ => .pure _

theorem toVar_succeeds (v : Value) : SucceedsIf (toVar v) true := by
  unfold toVar
  split
  · exact .pure _
  · exact (temp_succeeds _).andThen fun _ => .pure _

theorem inOrder_succeedsIf (h : List.Forall₂ SucceedsIf xs bs) :
    SucceedsIf (inOrder xs) (bs.all id) := by
  induction h with
  | nil => exact .pure _
  | cons hx _ ih => exact hx.bind fun _ => ih.andThen fun _ => .pure _

theorem storeFrom_succeedsIf (h : List.Forall₂ SucceedsIf xs bs) (array : Var) (index : Nat) :
    SucceedsIf (storeFrom array index xs) (bs.all id) := by
  induction h generalizing index with
  | nil => exact .pure _
  | cons hx _ ih => exact hx.bind fun _ => (ih (index + 1)).andThen fun _ => .pure _

theorem packArray_succeedsIf (h : List.Forall₂ SucceedsIf xs bs) (t : IrType) :
    SucceedsIf (packArray t xs) (bs.all id) :=
  (temp_succeeds t).bind fun array => (storeFrom_succeedsIf h array 0).andThen fun _ => .pure _

theorem binary_succeedsIf {x : Lower Value} (op : BinaryOp) (hx : SucceedsIf x b)
    (hy : SucceedsIf y b') : SucceedsIf (binary op x y) (b && b') := by
  have hlogical (k : LabelKind) (code : Nat → Var → Value → Value → Code) : SucceedsIf (do
        let n ← label k
        let result ← temp .boolean
        let a ← x
        let b ← y
        return Value.mk (.var result) (code n result a b)) (b && b') :=
    (label_succeeds k).bind fun n => (temp_succeeds .boolean).bind fun result =>
      hx.bind fun _ => hy.andThen fun _ => .pure _
  have hvalue (op' : BinOp) : SucceedsIf (do
        let a ← x
        let b ← y
        assignTemp (a.code ++ b.code) (.binary op' a.operand b.operand)) (b && b') :=
    hx.bind fun _ => hy.andThen fun _ => assignTemp_succeeds _ _
  cases op with
  | and => exact hlogical .and _
  | or => exact hlogical .or _
  | _ => exact hvalue _

end Ir.Lower

/-! ## The condition -/

namespace Scope

variable (sc : Scope)

/-- The expression is no call without result. -/
def hasValue (d : Ty) (n : Node) : Bool := !(n.isCall && sc.typeOf? d n = some .void)

/-- The name means an import. -/
def isImport (name : String) : Bool :=
  match sc.lookup? name with
  | some (.imported _) => true
  | _ => false

/-- The expressions whose values a node uses have values, and what it assigns is no import. -/
def usesValues (n : Node) : Bool :=
  match n.kind with
  | .paren _ | .exprStmt _ => true
  | .assign target value => sc.hasValue (sc.targetDemand target) value && !sc.isImport target
  | _ => (n.children.zipWith (fun c d => sc.hasValue d c) (sc.demands .int n)).all id

/-- The expression has a value, and so have all that are used for it. -/
def isComputable (d : Ty) (n : Node) : Bool := sc.hasValue d n && n.preorder.all sc.usesValues

variable {sc} {n : Node}

theorem all_preorder (n : Node) (p : Node → Bool) :
    n.preorder.all p = (p n && n.children.all fun c => c.preorder.all p) := by
  rw [Node.preorder_eq, List.all_cons, List.all_flatMap]

/-- A node with one child adds only itself. -/
theorem all_preorder_of_single {p : Node → Bool} {c : Node} (hn : p n = true)
    (hc : n.children = [c]) : n.preorder.all p = c.preorder.all p := by
  rw [all_preorder, hn, hc]
  simp

theorem hasValue_of_not_isCall (h : n.isCall = false) (d : Ty) : sc.hasValue d n = true := by
  simp [hasValue, h]

theorem isComputable_of_not_isCall (h : n.isCall = false) (d : Ty) :
    sc.isComputable d n = n.preorder.all sc.usesValues := by
  rw [isComputable, hasValue_of_not_isCall h, Bool.true_and]

theorem not_isCall_of_isStmt (h : n.IsStmt) : n.isCall = false := by
  obtain ⟨i, p, k⟩ := n
  cases k with
  | call | paren => cases h
  | _ => rfl

theorem isComputable_paren (i : Nat) (p : Position) (inner : Node) (d : Ty) :
    sc.isComputable d ⟨i, p, .paren inner⟩ = sc.isComputable d inner := by
  have hvalue : sc.hasValue d ⟨i, p, .paren inner⟩ = sc.hasValue d inner := rfl
  rw [isComputable, isComputable, hvalue, all_preorder_of_single rfl rfl]

/-- A node without calls among its children uses values, unless it assigns an import. -/
theorem usesValues_of_not_isCall (hassign : n.label ≠ .assign)
    (h : ∀ c ∈ n.children, c.isCall = false) : sc.usesValues n = true := by
  have hall : (n.children.zipWith (fun c d => sc.hasValue d c) (sc.demands .int n)).all id = true := by
    refine List.all_eq_true.mpr fun b hb => ?_
    obtain ⟨i, hi, rfl⟩ := List.mem_iff_getElem.mp hb
    rw [List.getElem_zipWith]
    exact hasValue_of_not_isCall (h _ (List.getElem_mem _)) _
  obtain ⟨i, p, k⟩ := n
  cases k with
  | assign => exact absurd rfl hassign
  | paren | exprStmt => rfl
  | _ => exact hall

/-- A node and all below it use values if its children are computable, as far as the node asks them
for values and assigns none. -/
theorem all_usesValues (h : [Label.paren, .exprStmt, .assign].contains n.label = false) :
    n.preorder.all sc.usesValues =
      (n.children.zipWith (fun c d => sc.isComputable d c) (sc.demands .int n)).all id := by
  have hn : sc.usesValues n =
      (n.children.zipWith (fun c d => sc.hasValue d c) (sc.demands .int n)).all id := by
    obtain ⟨i, p, k⟩ := n
    cases k with
    | paren | exprStmt | assign => cases h
    | _ => rfl
  have hzip (cs : List Node) (ds : List Ty) (hlength : ds.length = cs.length) :
      (cs.zipWith (fun c d => sc.isComputable d c) ds).all id =
        ((cs.zipWith (fun c d => sc.hasValue d c) ds).all id &&
          cs.all fun c => c.preorder.all sc.usesValues) := by
    induction cs generalizing ds with
    | nil => rfl
    | cons c cs ih =>
      cases ds with
      | nil => cases hlength
      | cons d ds =>
        simp only [List.zipWith_cons_cons, List.all_cons, id]
        rw [ih ds (Nat.succ.inj hlength), isComputable]
        simp only [Bool.and_assoc, Bool.and_left_comm]
  rw [all_preorder, hn, hzip n.children _ (sc.length_demands .int n)]

/-! ## Expressions -/

open Lower

theorem lowerName_succeeds {name : String} (h : (sc.lookup? name).isSome = true) (p : Position) :
    SucceedsIf (sc.lowerName name p) true := by
  unfold lowerName
  split
  · exact .pure _
  · exact .pure _
  · exact .pure _
  · exact assignTemp_succeeds _ _
  · rename_i hnone
    rw [hnone] at h
    cases h

/-- Only a name by itself makes a call static. -/
theorem isComputable_of_staticReceiver? {receiver : Node} {className : String}
    (h : sc.staticReceiver? receiver = some className) (d : Ty) :
    sc.isComputable d receiver = true := by
  obtain ⟨i, p, k⟩ := receiver
  cases k with
  | varRef name => rfl
  | _ => cases h

theorem lowerArguments_succeedsIf (receiver : Node) (method : String) (arguments : List Node)
    {values : List (Lower Value)} {bs : List Bool} (h : List.Forall₂ SucceedsIf values bs) :
    SucceedsIf (sc.lowerArguments receiver method arguments values) (bs.all id) := by
  rw [lowerArguments_eq]
  split
  · rename_i k t hpacking
    rw [← List.take_append_drop k bs, List.all_append]
    refine (inOrder_succeedsIf (List.forall₂_take k h)).bind fun _ => ?_
    exact (packArray_succeedsIf (List.forall₂_drop k h) t).andThen fun _ => .pure _
  · exact inOrder_succeedsIf h

theorem lowerCall_succeedsIf (t : IrType) {receiver : Node} (method : String)
    (arguments : List Node) {values : List (Lower Value)} {bs : List Bool}
    (hreceiver : SucceedsIf (sc.lowerExpr .object receiver) (sc.isComputable .object receiver))
    (h : List.Forall₂ SucceedsIf values bs) :
    SucceedsIf (sc.lowerCall t receiver method arguments (sc.lowerExpr .object receiver) values)
      (sc.isComputable .object receiver && bs.all id) := by
  have harguments := sc.lowerArguments_succeedsIf receiver method arguments h
  unfold lowerCall
  split
  · rename_i className hstatic
    rw [isComputable_of_staticReceiver? hstatic, Bool.true_and]
    simp only [pure_bind]
    exact harguments.andThen fun _ => .pure _
  · simp only [pure_bind]
    exact hreceiver.bind fun _ => harguments.andThen fun _ => .pure _

theorem lowerEach_succeedsIf {ns : List Node}
    (h : ∀ n ∈ ns, ∀ d, SucceedsIf (sc.lowerExpr d n) (sc.isComputable d n)) {ds : List Ty}
    (hlength : ds.length = ns.length) :
    List.Forall₂ SucceedsIf (sc.lowerEach ds ns) (ns.zipWith (fun n d => sc.isComputable d n) ds) := by
  induction ns generalizing ds with
  | nil => exact .nil
  | cons n ns ih =>
    cases ds with
    | nil => cases hlength
    | cons d ds =>
      obtain ⟨hn, hns⟩ := List.forall_mem_cons.mp h
      exact .cons (hn d) (ih hns (Nat.succ.inj hlength))

/-- The code for the operands of a call exists if all nodes below the call use values. -/
theorem operands_succeedIf {i : Nat} {p : Position} {receiver : Node} {method : String}
    {arguments : List Node} (h : ∀ c ∈ receiver :: arguments, ∀ d,
      SucceedsIf (sc.lowerExpr d c) (sc.isComputable d c)) (t : IrType) :
    SucceedsIf (sc.lowerCall t receiver method arguments (sc.lowerExpr .object receiver)
        (sc.lowerEach (sc.argumentDemands receiver method arguments) arguments))
      ((⟨i, p, .call receiver method arguments⟩ : Node).preorder.all sc.usesValues) := by
  obtain ⟨hreceiver, harguments⟩ := List.forall_mem_cons.mp h
  rw [all_usesValues (n := ⟨i, p, .call receiver method arguments⟩) rfl]
  exact lowerCall_succeedsIf t method arguments (hreceiver .object)
    (lowerEach_succeedsIf harguments (sc.length_argumentDemands receiver method arguments))

/-- **The lowering of an expression that passes all checks succeeds exactly if it has a value and all
nodes below it use values.** -/
theorem lowerExpr_succeedsIf (hplaced : sc.placed = none) (hclass : IsIdentifier sc.table.className)
    (h : sc.Approves n) (hn : n.IsExpr) (d : Ty) :
    SucceedsIf (sc.lowerExpr d n) (sc.isComputable d n) := by
  induction n using Node.induction generalizing d with
  | step n ih =>
    have ih (c : Node) (hc : c ∈ n.children) (d : Ty) :
        SucceedsIf (sc.lowerExpr d c) (sc.isComputable d c) :=
      ih c hc (h.child hc) (h.wellFormed.isExpr_of_mem_children hn hc) d
    have hnames := h.namesHere
    -- Only a call and what stands in parentheses may lack a value by itself.
    have hchildren (hcall : n.isCall = false)
        (hlabel : [Label.paren, .exprStmt, .assign].contains n.label = false) :
        sc.isComputable d n =
          (n.children.zipWith (fun c d => sc.isComputable d c) (sc.demands .int n)).all id := by
      rw [isComputable_of_not_isCall hcall, all_usesValues hlabel]
    obtain ⟨i, p, k⟩ := n
    cases k with
    | program | importDecl | classDecl | varDecl | methodDecl | param | assign | arrayAssign
    | returning | ifElse | whileLoop | block | exprStmt => cases hn
    | intLit | boolLit | this => exact .pure _
    | varRef name =>
      refine lowerName_succeeds (Option.isSome_iff_ne_none.mpr ?_) p
      simpa [checkNamesAt] using hnames
    | paren inner =>
      rw [isComputable_paren]
      exact ih inner List.mem_cons_self d
    | binary op left right =>
      have hright := ih right mem_second
        (sc.operandDemands op left right).2
      have hboth := binary_succeedsIf op
        (ih left List.mem_cons_self (sc.operandDemands op left right).1) hright
      rw [← Bool.and_true (sc.isComputable _ right)] at hboth
      rw [hchildren rfl rfl]
      exact hboth
    | unary op operand =>
      rw [hchildren rfl rfl]
      cases op
      exact (ih operand List.mem_cons_self .boolean).bind fun v => assignTemp_succeeds _ _
    | newObject className =>
      rw [hchildren rfl rfl]
      exact (assignTemp_succeeds [] _).andThen fun v => .pure _
    | newArray element size =>
      rw [hchildren rfl rfl]
      exact (ih size List.mem_cons_self .int).bind fun v => assignTemp_succeeds _ _
    | arrayAccess array index =>
      rw [hchildren rfl rfl]
      have hindex := ih index mem_second .int
      refine (ih array List.mem_cons_self .intArray).bind fun v => ?_
      exact (toVar_succeeds v).bind fun x => hindex.bind fun i => assignTemp_succeeds _ _
    | arrayLength array =>
      rw [hchildren rfl rfl]
      refine (ih array List.mem_cons_self .intArray).bind fun v => ?_
      exact (toVar_succeeds v).bind fun x => assignTemp_succeeds _ _
    | arrayLit elements =>
      rw [hchildren rfl rfl]
      have heach := lowerEach_succeedsIf (fun c hc d => ih c hc d)
        (List.length_replicate : (sc.elementDemands elements).length = elements.length)
      exact (packArray_succeedsIf heach _).andThen fun _ => .pure _
    | call receiver method arguments =>
      obtain ⟨t, ht, -⟩ := sc.hasLoweredType hplaced hclass h hn d
      have hyields : Yields (sc.lowerCall (.ofTy t) receiver method arguments
          (sc.lowerExpr .object receiver)
          (sc.lowerEach (sc.argumentDemands receiver method arguments) arguments))
          (fun a => a.1.returnType = .ofTy t) fun _ => True :=
        sc.lowerCall_yields (.ofTy t) receiver method arguments (.always fun _ => trivial)
          fun _ _ => .always fun _ => trivial
      rw [isComputable, Bool.and_comm]
      rw [lowerExpr_call, ht]
      refine (operands_succeedIf ih (.ofTy t)).bind_of_yields hyields ?_
      rintro ⟨c, code⟩ hc
      have hvalue : sc.hasValue d ⟨i, p, .call receiver method arguments⟩ =
          !decide (c.returnType = .void) := by
        rw [show c.returnType = .ofTy t from hc]
        simp only [hasValue, ht, Node.isCall, Option.some.injEq, IrType.ofTy_eq_void, Bool.true_and]
      rw [hvalue]
      by_cases hvoid : c.returnType = .void
      · simp only [hvoid, if_true, decide_true, Bool.not_true]
        exact (SucceedsIf.throw (.inl ⟨method, p, rfl⟩)).andThen fun _ => assignTemp_succeeds _ _
      · simp only [hvoid, if_false, decide_false, Bool.not_false]
        exact assignTemp_succeeds _ _

/-! ## Statements -/

theorem lowerDropped_succeedsIf (hplaced : sc.placed = none)
    (hclass : IsIdentifier sc.table.className) (h : sc.Approves n) (hn : n.IsExpr) :
    SucceedsIf (sc.lowerDropped n) (n.preorder.all sc.usesValues) := by
  induction n using Node.induction with
  | step n ih =>
    have hexpr (c : Node) (hc : c ∈ n.children) (d : Ty) :
        SucceedsIf (sc.lowerExpr d c) (sc.isComputable d c) :=
      lowerExpr_succeedsIf hplaced hclass (h.child hc)
        (h.wellFormed.isExpr_of_mem_children hn hc) d
    have hvalue (hcall : n.isCall = false) :
        SucceedsIf (do return (← sc.lowerExpr .void n).code) (n.preorder.all sc.usesValues) := by
      rw [← isComputable_of_not_isCall hcall .void]
      exact (lowerExpr_succeedsIf hplaced hclass h hn .void).andThen fun _ => .pure _
    obtain ⟨i, p, k⟩ := n
    cases k with
    | paren inner =>
      have hinner := h.wellFormed.isExpr_of_mem_children hn List.mem_cons_self
      rw [all_preorder_of_single rfl rfl]
      exact ih inner List.mem_cons_self (h.child List.mem_cons_self) hinner
    | call receiver method arguments =>
      rw [lowerDropped_call]
      exact (operands_succeedIf hexpr _).andThen fun _ => .pure _
    | _ => exact hvalue rfl

/-- What is assigned is declared, since a field that a static method assigns is found by another
check. -/
theorem isSome_lookup?_of_assigned {target : String} (h : sc.Approves n)
    (hn : (∃ value, n.kind = .assign target value) ∨
      ∃ index value, n.kind = .arrayAssign target index value) :
    (sc.lookup? target).isSome = true := by
  have hnames := h.namesHere
  have hstructure := h.structuredHere
  rw [Option.isSome_iff_ne_none]
  intro hnone
  unfold checkNamesAt at hnames
  unfold checkStructureAt at hstructure
  rcases hn with ⟨value, hkind⟩ | ⟨index, value, hkind⟩ <;>
    simp [hkind, hnone, isHiddenField] at hnames hstructure <;>
    simp [hstructure hnames.1] at hnames

theorem lowerAssign_succeedsIf {target : String} {x : Lower Value} {b : Bool}
    (hx : SucceedsIf x b) (htarget : (sc.lookup? target).isSome = true) (p : Position) :
    SucceedsIf (sc.lowerAssign target p x) (b && !sc.isImport target) := by
  unfold lowerAssign isImport
  refine hx.bind fun v => ?_
  obtain ⟨binding, hb⟩ := Option.isSome_iff_exists.mp htarget
  rw [hb]
  cases binding with
  | imported path => exact .throw (.inr ⟨target, p, rfl⟩)
  | param | «local» | field => exact .pure _

/-- What is indexed is no import, since no import has the type of an array. -/
theorem lowerArrayName_succeeds {target : String} {index value : Node} (h : sc.Approves n)
    (hn : n.kind = .arrayAssign target index value) (p : Position) :
    SucceedsIf (sc.lowerArrayName target p) true := by
  have htypes := h.typesHere
  obtain ⟨binding, hb⟩ :=
    Option.isSome_iff_exists.mp (isSome_lookup?_of_assigned h (.inr ⟨index, value, hn⟩))
  unfold checkTypesAt at htypes
  simp only [hn, List.append_eq_nil_iff, variableType?, hb, Option.map_some] at htypes
  unfold lowerArrayName
  rw [hb]
  cases binding with
  | imported path => simp [Binding.type, Ty.ofClass] at htypes
  | param | «local» => exact .pure _
  | field t => exact (temp_succeeds _).bind fun _ => .pure _

theorem lowerStmts_succeedIf {ns : List Node}
    (h : ∀ n ∈ ns, SucceedsIf (sc.lowerStmt n) (n.preorder.all sc.usesValues)) :
    SucceedsIf (sc.lowerStmts ns) (ns.all fun n => n.preorder.all sc.usesValues) := by
  induction ns with
  | nil => exact .pure _
  | cons n ns ih =>
    obtain ⟨hn, hns⟩ := List.forall_mem_cons.mp h
    exact hn.bind fun _ => (ih hns).andThen fun _ => .pure _

/-- **The lowering of a statement that passes all checks succeeds exactly if all its nodes use
values.** -/
theorem lowerStmt_succeedsIf (hplaced : sc.placed = none) (hclass : IsIdentifier sc.table.className)
    (h : sc.Approves n) (hn : n.IsStmt) :
    SucceedsIf (sc.lowerStmt n) (n.preorder.all sc.usesValues) := by
  induction n using Node.induction with
  | step n ih =>
    have hexpr {c : Node} (hc : c ∈ n.children) (hc' : c.IsExpr) (d : Ty) :
        SucceedsIf (sc.lowerExpr d c) (sc.isComputable d c) :=
      lowerExpr_succeedsIf hplaced hclass (h.child hc) hc' d
    have hstmt {c : Node} (hc : c ∈ n.children) (hc' : c.IsStmt) (d : Ty) :
        SucceedsIf (sc.lowerStmt c) (sc.isComputable d c) := by
      rw [isComputable_of_not_isCall (not_isCall_of_isStmt hc')]
      exact ih c hc (h.child hc) hc'
    have hchildren := sc.all_usesValues (n := n)
    have hfits := h.wellFormed.fits
    obtain ⟨i, p, k⟩ := n
    cases k with
    | assign target value =>
      have hvalue := hexpr List.mem_cons_self (hfits value List.mem_cons_self)
        (sc.targetDemand target)
      have htarget := isSome_lookup?_of_assigned h (.inl ⟨value, rfl⟩)
      have hcond : (⟨i, p, .assign target value⟩ : Node).preorder.all sc.usesValues =
          (sc.isComputable (sc.targetDemand target) value && !sc.isImport target) := by
        rw [all_preorder, isComputable]
        simp [usesValues, Node.children, Kind.children, Bool.and_right_comm]
      rw [hcond]
      exact lowerAssign_succeedsIf hvalue htarget p
    | arrayAssign target index value =>
      rw [hchildren rfl]
      have hmem : value ∈ [index, value] := mem_second
      have hindex := hexpr List.mem_cons_self (hfits index List.mem_cons_self) .int
      have hvalue := hexpr hmem (hfits value hmem) (sc.elementDemand target)
      exact (lowerArrayName_succeeds h rfl p).bind fun array =>
        hindex.bind fun i => hvalue.bind fun v => .pure _
    | returning value =>
      rw [hchildren rfl]
      cases value with
      | none => exact .pure _
      | some value =>
        exact (hexpr List.mem_cons_self (hfits value List.mem_cons_self) _).bind fun v => .pure _
    | ifElse c thenBranch elseBranch =>
      rw [hchildren rfl]
      obtain ⟨hc, hthen, helse⟩ := hfits
      have hcond := hexpr List.mem_cons_self hc .boolean
      have hthen := hstmt mem_second hthen .boolean
      cases elseBranch with
      | none =>
        refine (label_succeeds .ifElse).bind fun k => hcond.bind fun v => ?_
        exact hthen.bind fun code => .pure _
      | some elseBranch =>
        have helse := hstmt mem_third
          (helse elseBranch rfl) .boolean
        refine (label_succeeds .ifElse).bind fun k => hcond.bind fun v => ?_
        -- The code for the other case is made first.
        show SucceedsIf _ (sc.isComputable .boolean thenBranch &&
          (sc.isComputable .boolean elseBranch && true))
        rw [Bool.and_left_comm]
        exact helse.bind fun elseCode => hthen.bind fun thenCode => .pure _
    | whileLoop c body =>
      rw [hchildren rfl]
      obtain ⟨hc, hbody⟩ := hfits
      have hcond := hexpr List.mem_cons_self hc .boolean
      have hbody := hstmt mem_second hbody .boolean
      refine (label_succeeds .whileLoop).bind fun k => hcond.bind fun v => ?_
      exact hbody.bind fun code => .pure _
    | block statements =>
      have hn : sc.usesValues ⟨i, p, .block statements⟩ = true :=
        usesValues_of_not_isCall (by rintro ⟨⟩) fun c hc => not_isCall_of_isStmt (hfits c hc)
      rw [all_preorder, hn, Bool.true_and]
      exact lowerStmts_succeedIf fun c hc => ih c hc (h.child hc) (hfits c hc)
    | exprStmt e =>
      rw [all_preorder_of_single rfl rfl]
      exact lowerDropped_succeedsIf hplaced hclass (h.child List.mem_cons_self)
        (hfits e List.mem_cons_self)
    | _ => cases hn

end Scope

/-! ## Methods -/

section Method

open Lower

variable {m : Node}

/-- A condition on all nodes of a method is one on its body if it holds of the method and of every
declaration. -/
theorem all_preorder_of_method {p : Node → Bool} {head : MethodHead} {params locals body : List Node}
    (hkind : m.kind = .methodDecl head params locals body) (hwellFormed : m.WellFormed)
    (hm : p m = true) (hdeclared : ∀ c : Node, c.label = .param ∨ c.label = .varDecl → p c = true) :
    m.preorder.all p = body.all fun c => c.preorder.all p := by
  have hfits := hwellFormed.fits
  rw [hkind] at hfits
  have hleaf (c : Node) (hc : c.label = .param ∨ c.label = .varDecl) :
      c.preorder.all p = true := by
    rw [Scope.all_preorder, hdeclared c hc]
    obtain ⟨i, p, k⟩ := c
    cases k with
    | param | varDecl => rfl
    | _ => rcases hc with hc | hc <;> cases hc
  rw [Scope.all_preorder, hm, Node.children, hkind, Kind.children, List.all_append, List.all_append,
    List.all_eq_true.mpr fun c hc => hleaf c (.inl (hfits.1 c hc)),
    List.all_eq_true.mpr fun c hc => hleaf c (.inr (hfits.2.1 c hc))]
  rfl

/-- A declaration of a parameter or a variable uses no values. -/
theorem usesValues_of_declaration (sc : Scope) {c : Node}
    (h : c.label = .param ∨ c.label = .varDecl) : c.isCall = false ∧ sc.usesValues c = true := by
  obtain ⟨i, p, k⟩ := c
  cases k with
  | param | varDecl => exact ⟨rfl, rfl⟩
  | _ => rcases h with h | h <;> cases h

theorem lowerParam_succeeds {c : Node} (h : c.label = .param) : SucceedsIf (lowerParam c) true := by
  obtain ⟨i, p, k⟩ := c
  cases k with
  | param name type => exact .pure _
  | _ => cases h

/-- **The lowering of a method that passes all checks succeeds exactly if all its nodes use
values.** -/
theorem lowerMethod_succeedsIf {table : SymbolTable} {head : MethodHead}
    {params locals body : List Node} (hclass : IsIdentifier table.className)
    (hkind : m.kind = .methodDecl head params locals body)
    (h : (Scope.ofMethod table head).Approves m) :
    SucceedsIf (lowerMethod (Scope.ofMethod table) m)
      (m.preorder.all (Scope.ofMethod table head).usesValues) := by
  have hfits := h.wellFormed.fits
  have hchildren : m.children = params ++ locals ++ body := by
    rw [Node.children, hkind]
    rfl
  rw [hkind] at hfits
  obtain ⟨hparams, hlocals, hbody⟩ := hfits
  have hstmts := (Scope.ofMethod table head).lowerStmts_succeedIf fun c hc =>
    Scope.lowerStmt_succeedsIf rfl hclass (h.child (hchildren ▸ List.mem_append_right _ hc))
      (hbody c hc)
  have hm : (Scope.ofMethod table head).usesValues m = true := by
    refine Scope.usesValues_of_not_isCall (by simp [Node.label, hkind, Kind.label]) fun c hc => ?_
    rw [hchildren] at hc
    rcases List.mem_append.mp hc with hc | hc
    · refine (usesValues_of_declaration (.ofMethod table head) ?_).1
      exact (List.mem_append.mp hc).imp (hparams c) (hlocals c)
    · exact Scope.not_isCall_of_isStmt (hbody c hc)
  rw [all_preorder_of_method hkind h.wellFormed hm fun c hc =>
    (usesValues_of_declaration _ hc).2]
  unfold lowerMethod
  rw [hkind]
  have hmap : SucceedsIf (params.mapM lowerParam) (params.all fun _ => true) :=
    .mapM fun c hc => lowerParam_succeeds (hparams c hc)
  rw [List.all_eq_true.mpr fun _ _ => rfl] at hmap
  exact hmap.bind fun _ => hstmts.andThen fun _ => .pure _

end Method

/-! ## Programs -/

/-- All nodes of a method use values. -/
def Node.isLowerable (table : SymbolTable) (m : Node) : Bool :=
  match m.kind with
  | .methodDecl head _ _ _ => m.preorder.all (Scope.ofMethod table head).usesValues
  | _ => false

/-- **An accepted program has three-address code exactly if all nodes of its methods use values**: no
call without result stands where a value is needed, and no import is assigned. If there is no code,
it is for one of these two reasons. -/
theorem exists_lower_eq_ok_iff {source : String} {root : Node} {table : SymbolTable}
    (h : Accepted source root table) :
    ((∃ unit, lower table root = .ok unit) ↔ ∀ m ∈ root.methods, m.isLowerable table = true) ∧
      ∀ e, lower table root = .error e → e.IsMisuse := by
  have hmethods : Lower.SucceedsIf (root.methods.mapM (lowerMethod (Scope.ofMethod table)))
      (root.methods.all (Node.isLowerable table)) := .mapM fun m hm => by
    obtain ⟨head, params, locals, body, hkind, happroves⟩ := h.approves hm
    rw [Node.isLowerable, hkind]
    exact lowerMethod_succeedsIf h.isIdentifier_className hkind happroves
  have hrun := hmethods (.ofTable table)
  rw [← List.all_eq_true]
  unfold lower lowerWith StateT.run'
  unfold StateT.run at hrun
  split at hrun
  · rename_i ms s' hms
    rw [hms]
    exact ⟨⟨fun _ => hrun, fun _ => ⟨_, rfl⟩⟩, nofun⟩
  · rename_i e he
    rw [he, hrun.1]
    refine ⟨⟨nofun, nofun⟩, fun e' he' => ?_⟩
    cases he'
    exact hrun.2

/-- A call without result whose value is dropped does no harm. -/
theorem exists_lower_eq_ok_iff_dropped : ∃ root table,
    Accepted "class A{void g(){}int f(int a){(this.g());return a;}}" root table ∧
      ∃ unit, lower table root = .ok unit := by
  obtain ⟨root, table, h, hp⟩ := Accepted.exists_of_any
    "class A{void g(){}int f(int a){(this.g());return a;}}"
    (fun root table => root.methods.all (Node.isLowerable table)) (by decide +kernel)
  exact ⟨root, table, h, (exists_lower_eq_ok_iff h).1.mpr (List.all_eq_true.mp hp)⟩

/-- A method without result may return a call to itself by the checks, but there is no code for
that. -/
theorem lower_ne_ok_returned : ∃ root table,
    Accepted "class A{void f(){return this.f();}}" root table ∧
      ∀ unit, lower table root ≠ .ok unit := by
  obtain ⟨root, table, h, hp⟩ := Accepted.exists_of_any "class A{void f(){return this.f();}}"
    (fun root table => !(lower table root).isOk) (by decide +kernel)
  refine ⟨root, table, h, fun unit hunit => ?_⟩
  simp only [hunit] at hp
  cases hp

end MiniJava
