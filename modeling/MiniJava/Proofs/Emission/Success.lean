import MiniJava.Jvm.Text
import MiniJava.Proofs.Emission.Blocks
import MiniJava.Proofs.Lowering.Success

/-!
# Which lowered programs have assembly

The name of an import may stand wherever its type fits, and any method may be called on a `String` or
on an array of objects, as far as the checks are concerned. But a class is no value that an
instruction could work on, and only the objects of classes have methods that can be named.

`Scope.isEmittable` is what a node has to fulfil besides the checks. An accepted program that has
three-address code has assembly exactly if all nodes of its methods do
(`exists_assemble_eq_ok_iff`). Some do not (`assemble_ne_ok_string`).
-/

namespace MiniJava

open Ir

/-! ## Code with blocks -/

namespace Ir

@[simp] theorem Operand.isValue_int (value : Int32) : (Operand.int value).isValue = true := rfl

@[simp] theorem Operand.isValue_bool (value : Bool) : (Operand.bool value).isValue = true := rfl

@[simp] theorem Operand.isValue_var (v : Var) : (Operand.var v).isValue = true := rfl

namespace Lower

variable {x y : Lower Value} {xs : List (Lower Value)} {b b' v v' : Bool}
  {bs : List (Bool × Bool)}

/-- All instructions have blocks exactly if the first condition holds, and the operand is a value
exactly if the second does. -/
def BlocksIf (x : Lower Value) (b v : Bool) : Prop :=
  Yields x (fun a => a.code.all Instr.hasBlock = b ∧ a.operand.isValue = v) fun _ => True

theorem assignTemp_blocksIf (code : Code) (rhs : Rhs) :
    BlocksIf (assignTemp code rhs) (code.all Instr.hasBlock && rhs.hasBlock) true :=
  .seq fun dest => .pure ⟨by simp [Instr.hasBlock], rfl⟩

/-- An operation on one value. -/
theorem operation_blocksIf (hx : BlocksIf x b v) {f : Operand → Rhs}
    (hf : ∀ o, (f o).hasBlock = o.isValue) :
    BlocksIf (do
      let a ← x
      assignTemp a.code (f a.operand)) (b && v) true :=
  hx.bind fun a ha => (assignTemp_blocksIf a.code _).mono fun c hc =>
    ⟨by rw [hc.1, hf, ha.1, ha.2], hc.2⟩

/-- Any operand is put into a variable, which only a value can be. -/
theorem toVar_blocksIf (a : Value) : Yields (toVar a)
    (fun p => p.2.all Instr.hasBlock = (a.code.all Instr.hasBlock && a.operand.isValue))
    fun _ => True := by
  unfold toVar
  split
  · rename_i x hx
    refine .pure ?_
    rw [hx]
    simp
  · exact .seq fun dest => .pure (by simp [Instr.hasBlock, Rhs.hasBlock])

theorem inOrder_blocksIf (h : List.Forall₂ (fun x p => BlocksIf x p.1 p.2) xs bs) :
    Yields (inOrder xs) (fun a => (a.2.all Instr.hasBlock && a.1.all Operand.isValue) =
      bs.all fun p => p.1 && p.2) fun _ => True := by
  induction h with
  | nil => exact .pure rfl
  | cons hx _ ih =>
    refine hx.bind fun a ha => ih.bind fun p hp => .pure ?_
    simp only [List.all_append, List.all_cons, ← hp, ha.1, ha.2]
    ac_rfl

theorem storeFrom_blocksIf (h : List.Forall₂ (fun x p => BlocksIf x p.1 p.2) xs bs) (array : Var)
    (index : Nat) : Yields (storeFrom array index xs)
      (fun code => code.all Instr.hasBlock = bs.all fun p => p.1 && p.2) fun _ => True := by
  induction h generalizing index with
  | nil => exact .pure rfl
  | cons hx _ ih =>
    refine hx.bind fun a ha => (ih (index + 1)).bind fun code hcode => .pure ?_
    simp only [List.all_append, List.all_cons, hcode, ha.1, ha.2, Instr.hasBlock,
      Operand.isValue_int, Bool.true_and]
    ac_rfl

theorem packArray_blocksIf (h : List.Forall₂ (fun x p => BlocksIf x p.1 p.2) xs bs) (t : IrType) :
    Yields (packArray t xs) (fun a => a.2.all Instr.hasBlock = bs.all fun p => p.1 && p.2)
      fun _ => True :=
  .seq fun array => (storeFrom_blocksIf h array 0).bind fun code hcode => .pure <| by
    simpa [Instr.hasBlock, Rhs.hasBlock] using hcode

theorem binary_blocksIf (op : BinaryOp) (hx : BlocksIf x b v) (hy : BlocksIf y b' v') :
    BlocksIf (binary op x y) ((b && v) && (b' && v')) true := by
  have hlogical (k : LabelKind) (code : Nat → Var → Value → Value → Code)
      (hcode : ∀ n result a a', (code n result a a').all Instr.hasBlock =
        ((a.code.all Instr.hasBlock && a.operand.isValue) &&
          (a'.code.all Instr.hasBlock && a'.operand.isValue))) : BlocksIf (do
        let n ← label k
        let result ← temp .boolean
        let a ← x
        let b ← y
        return ⟨.var result, code n result a b⟩) ((b && v) && (b' && v')) true :=
    .seq fun n => .seq fun result => hx.bind fun a ha => hy.bind fun a' ha' =>
      .pure ⟨by rw [hcode, ha.1, ha.2, ha'.1, ha'.2], rfl⟩
  have hvalue (op' : BinOp) : BlocksIf (do
        let a ← x
        let b ← y
        assignTemp (a.code ++ b.code) (.binary op' a.operand b.operand))
      ((b && v) && (b' && v')) true := by
    refine hx.bind fun a ha => hy.bind fun a' ha' => ?_
    refine (assignTemp_blocksIf _ _).mono fun c hc => ⟨?_, hc.2⟩
    rw [hc.1, List.all_append, ha.1, ha'.1, Rhs.hasBlock, ha.2, ha'.2]
    ac_rfl
  cases op with
  | and =>
    refine hlogical .and _ fun n result a a' => ?_
    simp [Instr.hasBlock, Rhs.hasBlock, Bool.and_assoc]
  | or =>
    refine hlogical .or _ fun n result a a' => ?_
    simp [Instr.hasBlock, Rhs.hasBlock, Bool.and_assoc]
  | _ => exact hvalue _

end Lower

end Ir

/-! ## The condition -/

namespace Scope

open Lower

variable (sc : Scope)

/-- The expression is the name of an import, perhaps in parentheses. -/
def namesClass (n : Node) : Bool :=
  match n.unwrap.kind with
  | .varRef name => sc.isImport name
  | _ => false

/-- The expression is an object of a class. -/
def isInstance (n : Node) : Bool :=
  ((sc.typeOf? .object n).map fun t => (IrType.ofTy t).isClass).getD false && !sc.namesClass n

/-- The node uses values only, and calls methods of imports and of objects only. -/
def isEmittable (n : Node) : Bool :=
  match n.kind with
  | .paren _ | .exprStmt _ => true
  | .call receiver _ arguments =>
    ((sc.staticReceiver? receiver).isSome || sc.isInstance receiver) &&
      arguments.all (!sc.namesClass ·)
  | _ => n.children.all (!sc.namesClass ·)

variable {sc} {n : Node}

theorem all_and_all (ns : List Node) (p q : Node → Bool) :
    (ns.all p && ns.all q) = ns.all fun n => q n && p n := by
  induction ns with
  | nil => rfl
  | cons n ns ih =>
    simp only [List.all_cons, ← ih]
    ac_rfl

/-- The nodes from one on use values only if none of its children names a class and the nodes from
each child on use values only. -/
theorem all_isEmittable (h : [Label.paren, .exprStmt, .call].contains n.label = false) :
    n.preorder.all sc.isEmittable =
      n.children.all fun c => c.preorder.all sc.isEmittable && !sc.namesClass c := by
  have hn : sc.isEmittable n = n.children.all (!sc.namesClass ·) := by
    obtain ⟨i, p, k⟩ := n
    cases k with
    | paren | exprStmt | call => cases h
    | _ => rfl
  rw [all_preorder, hn, all_and_all]

/-! ## Expressions -/

theorem lowerName_blocksIf (name : String) (p : Position) :
    BlocksIf (sc.lowerName name p) true (!sc.isImport name) := by
  unfold lowerName isImport
  cases sc.lookup? name with
  | none => exact Yields.throw trivial
  | some binding =>
    cases binding with
    | field t => exact assignTemp_blocksIf _ _
    | imported | param | «local» => exact Yields.pure ⟨rfl, rfl⟩

theorem lowerArguments_blocksIf (receiver : Node) (method : String) (arguments : List Node)
    {values : List (Lower Value)} {bs : List (Bool × Bool)}
    (h : List.Forall₂ (fun x p => BlocksIf x p.1 p.2) values bs) :
    Yields (sc.lowerArguments receiver method arguments values)
      (fun a => (a.2.all Instr.hasBlock && a.1.all Operand.isValue) = bs.all fun p => p.1 && p.2)
      fun _ => True := by
  rw [lowerArguments_eq]
  split
  · rename_i k t hpacking
    rw [← List.take_append_drop k bs, List.all_append]
    refine (inOrder_blocksIf (List.forall₂_take k h)).bind fun fixed hfixed => ?_
    refine (packArray_blocksIf (List.forall₂_drop k h) t).bind fun row hrow => .pure ?_
    simp only [List.all_append, ← hfixed, ← hrow, List.all_cons, List.all_nil,
      Operand.isValue_var, Bool.and_true]
    ac_rfl
  · exact inOrder_blocksIf h

theorem lowerEach_blocksIf {ns : List Node} (h : ∀ n ∈ ns, ∀ d,
      BlocksIf (sc.lowerExpr d n) (n.preorder.all sc.isEmittable) (!sc.namesClass n))
    (ds : List Ty) : List.Forall₂ (fun x p => BlocksIf x p.1 p.2) (sc.lowerEach ds ns)
      (ns.map fun n => (n.preorder.all sc.isEmittable, !sc.namesClass n)) := by
  induction ns generalizing ds with
  | nil => exact .nil
  | cons n ns ih =>
    obtain ⟨hn, hns⟩ := List.forall_mem_cons.mp h
    exact .cons (hn _) (ih hns ds.tail)

/-- A call has a block with the code for its operands if the condition holds of the call and of all
below it. -/
theorem lowerCall_blocksIf {i : Nat} {p : Position} {receiver : Node} {method : String}
    {arguments : List Node} {t : Ty} (ht : sc.typeOf? .object receiver = some t)
    (htarget : Lower.Typed (sc.lowerExpr .object receiver) (.ofTy t) LoweringError.IsVoidValue)
    (h : ∀ c ∈ receiver :: arguments, ∀ d,
      BlocksIf (sc.lowerExpr d c) (c.preorder.all sc.isEmittable) (!sc.namesClass c))
    (returnType : IrType) : Yields (sc.lowerCall returnType receiver method arguments
        (sc.lowerExpr .object receiver)
        (sc.lowerEach (sc.argumentDemands receiver method arguments) arguments))
      (fun a => (a.2.all Instr.hasBlock && a.1.hasBlock) =
        (⟨i, p, .call receiver method arguments⟩ : Node).preorder.all sc.isEmittable)
      fun _ => True := by
  obtain ⟨hreceiver, hrest⟩ := List.forall_mem_cons.mp h
  have harguments : Yields (sc.lowerArguments receiver method arguments
      (sc.lowerEach (sc.argumentDemands receiver method arguments) arguments))
      (fun a => (a.2.all Instr.hasBlock && a.1.all Operand.isValue) =
        arguments.all fun c => c.preorder.all sc.isEmittable && !sc.namesClass c) fun _ => True :=
    (sc.lowerArguments_blocksIf receiver method arguments
      (lowerEach_blocksIf hrest _)).mono fun a ha => ha.trans List.all_map
  have hcond : (⟨i, p, .call receiver method arguments⟩ : Node).preorder.all sc.isEmittable =
      (((sc.staticReceiver? receiver).isSome || sc.isInstance receiver) &&
        receiver.preorder.all sc.isEmittable &&
        arguments.all fun c => c.preorder.all sc.isEmittable && !sc.namesClass c) := by
    have hhere : sc.isEmittable ⟨i, p, .call receiver method arguments⟩ =
        (((sc.staticReceiver? receiver).isSome || sc.isInstance receiver) &&
          arguments.all (!sc.namesClass ·)) := rfl
    rw [← all_and_all, all_preorder, hhere, Node.children, Kind.children, List.all_cons]
    ac_rfl
  rw [hcond]
  unfold lowerCall
  split
  · rename_i className hstatic
    simp only [pure_bind]
    refine harguments.bind fun a ha => .pure ?_
    -- Only a name by itself makes a call static, and nothing stands below it.
    have hbelow : receiver.preorder.all sc.isEmittable = true := by
      obtain ⟨i, p, k⟩ := receiver
      cases k with
      | varRef name => rfl
      | _ => cases hstatic
    simp only [Call.hasBlock, Call.hasReceiver, List.nil_append, hstatic, hbelow,
      Option.isSome_some, Bool.true_or, Bool.true_and]
    exact ha
  · rename_i hvirtual
    simp only [pure_bind]
    refine ((hreceiver .object).and htarget.anyFailure).bind fun v hv => ?_
    refine harguments.bind fun a ha => .pure ?_
    obtain ⟨⟨hcode, hvalue⟩, htype⟩ := hv
    have hinstance : v.operand.isObject = sc.isInstance receiver := by
      rw [Operand.isObject, isInstance, htype, hvalue, ht]
      rfl
    simp only [Call.hasBlock, Call.hasReceiver, List.all_append, hcode, hinstance, hvirtual,
      Option.isSome_none, Bool.false_or]
    rw [← ha]
    ac_rfl

/-- **The code for an expression that passes all checks has blocks exactly if its nodes use values
only**, and its operand is a value unless it names a class. -/
theorem lowerExpr_blocksIf (hplaced : sc.placed = none) (hclass : IsIdentifier sc.table.className)
    (h : sc.Approves n) (hn : n.IsExpr) (d : Ty) :
    BlocksIf (sc.lowerExpr d n) (n.preorder.all sc.isEmittable) (!sc.namesClass n) := by
  induction n using Node.induction generalizing d with
  | step n ih =>
    have htyped := fun c (hc : c ∈ n.children) => sc.hasLoweredType hplaced hclass (h.child hc)
      (h.wellFormed.isExpr_of_mem_children hn hc)
    have ih (c : Node) (hc : c ∈ n.children) (d : Ty) :
        BlocksIf (sc.lowerExpr d c) (c.preorder.all sc.isEmittable) (!sc.namesClass c) :=
      ih c hc (h.child hc) (h.wellFormed.isExpr_of_mem_children hn hc) d
    have hchildren := sc.all_isEmittable (n := n)
    obtain ⟨i, p, k⟩ := n
    cases k with
    | program | importDecl | classDecl | varDecl | methodDecl | param | assign | arrayAssign
    | returning | ifElse | whileLoop | block | exprStmt => cases hn
    | intLit | boolLit | this => exact Yields.pure ⟨rfl, rfl⟩
    | varRef name => exact lowerName_blocksIf name p
    | paren inner =>
      rw [all_preorder_of_single rfl rfl]
      exact ih inner List.mem_cons_self d
    | binary op left right =>
      rw [hchildren rfl]
      have hright := ih right mem_second
        (sc.operandDemands op left right).2
      have hboth := binary_blocksIf op
        (ih left List.mem_cons_self (sc.operandDemands op left right).1) hright
      rw [← Bool.and_true (_ && !sc.namesClass right)] at hboth
      exact hboth
    | unary op operand =>
      rw [hchildren rfl]
      cases op
      have hoperand := operation_blocksIf (f := .not) (ih operand List.mem_cons_self .boolean)
        fun _ => rfl
      rw [← Bool.and_true (_ && _)] at hoperand
      exact hoperand
    | newObject className =>
      refine ((assignTemp_blocksIf [] (.newObject className)).and
        (assignTemp_typed [] (.newObject className))).bind fun v hv => .pure ⟨?_, hv.1.2⟩
      obtain ⟨⟨hcode, hvalue⟩, htype⟩ := hv
      have hcall : (Call.construct v.operand).hasBlock = true := by
        simp [Call.hasBlock, Call.hasReceiver, Call.construct, Operand.isObject, htype, hvalue,
          Rhs.type, IrType.isClass]
      simp only [List.all_append, hcode, List.all_cons, List.all_nil, Instr.hasBlock, hcall]
      rfl
    | newArray element size =>
      rw [hchildren rfl]
      have hsize := operation_blocksIf
        (f := fun size => .newArray size (.ofTy (Ty.ofExpr element).array))
        (ih size List.mem_cons_self .int) fun _ => rfl
      rw [← Bool.and_true (_ && _)] at hsize
      exact hsize
    | arrayAccess array index =>
      rw [hchildren rfl]
      have hindex := ih index mem_second .int
      refine (ih array List.mem_cons_self .intArray).bind fun v hv => ?_
      refine (toVar_blocksIf v).bind fun x hx => hindex.bind fun j hj => ?_
      refine (assignTemp_blocksIf _ _).mono fun c hc => ⟨?_, hc.2⟩
      rw [hv.1, hv.2] at hx
      rw [hc.1, List.all_append, hx, hj.1, Rhs.hasBlock, hj.2, Bool.and_assoc,
        ← Bool.and_true (_ && !sc.namesClass index)]
      rfl
    | arrayLength array =>
      rw [hchildren rfl]
      refine (ih array List.mem_cons_self .intArray).bind fun v hv => ?_
      refine (toVar_blocksIf v).bind fun x hx => ?_
      refine (assignTemp_blocksIf _ _).mono fun c hc => ⟨?_, hc.2⟩
      rw [hv.1, hv.2] at hx
      rw [hc.1, hx, Rhs.hasBlock]
      rfl
    | arrayLit elements =>
      rw [hchildren rfl]
      have heach := lowerEach_blocksIf (fun c hc => ih c hc) (sc.elementDemands elements)
      refine (packArray_blocksIf heach _).bind fun a ha => .pure ⟨?_, rfl⟩
      rw [List.all_map] at ha
      exact ha
    | call receiver method arguments =>
      obtain ⟨t, ht, htarget⟩ := htyped receiver List.mem_cons_self .object
      rw [lowerExpr_call]
      refine (lowerCall_blocksIf (i := i) (p := p) ht htarget ih _).bind ?_
      rintro ⟨c, code⟩ hc
      by_cases hvoid : c.returnType = .void
      · simp only [hvoid, if_true]
        exact (Yields.throw (P := fun _ => False) trivial).bind fun _ h => h.elim
      · simp only [hvoid, if_false]
        rw [← hc]
        exact assignTemp_blocksIf _ _

/-! ## Statements -/

/-- What is assigned to a method variable, also where its computation is made to end there. -/
theorem all_hasBlock_retarget (dest : Var) (v : Value) :
    ((retarget? dest v).getD (v.code ++ [.assign dest (.single v.operand)])).all Instr.hasBlock =
      (v.code.all Instr.hasBlock && v.operand.isValue) := by
  cases hretarget : retarget? dest v with
  | none => simp [Instr.hasBlock, Rhs.hasBlock]
  | some code =>
    obtain ⟨front, last, rhs, rfl, rfl⟩ := retarget?_eq_some hretarget
    simp [Instr.hasBlock]

theorem isObject_thisOperand : sc.thisOperand.isObject = true := rfl

theorem lowerAssign_blocksIf {x : Lower Value} {b v : Bool} (hx : BlocksIf x b v) (target : String)
    (p : Position) : Yields (sc.lowerAssign target p x)
      (fun code => code.all Instr.hasBlock = (b && v)) fun _ => True := by
  refine hx.bind fun a ha => ?_
  have hassign (dest : Var) : ((retarget? dest a).getD
      (a.code ++ [.assign dest (.single a.operand)])).all Instr.hasBlock = (b && v) := by
    rw [all_hasBlock_retarget, ha.1, ha.2]
  split
  · exact .pure (hassign _)
  · exact .pure (hassign _)
  · refine .pure ?_
    simp [Instr.hasBlock, isObject_thisOperand, ha.1, ha.2]
  · exact .throw trivial
  · exact .throw trivial

theorem lowerArrayName_blocks (target : String) (p : Position) :
    Yields (sc.lowerArrayName target p) (fun a => a.2.all Instr.hasBlock = true) fun _ => True := by
  unfold lowerArrayName
  split
  · exact .pure rfl
  · exact .pure rfl
  · exact .seq fun dest => .pure rfl
  · exact .throw trivial
  · exact .throw trivial

theorem lowerDropped_blocksIf (hplaced : sc.placed = none) (hclass : IsIdentifier sc.table.className)
    (h : sc.Approves n) (hn : n.IsExpr) : Yields (sc.lowerDropped n)
      (fun code => code.all Instr.hasBlock = n.preorder.all sc.isEmittable) fun _ => True := by
  induction n using Node.induction with
  | step n ih =>
    have hexpr {c : Node} (hc : c ∈ n.children) : c.IsExpr :=
      h.wellFormed.isExpr_of_mem_children hn hc
    have hchild := fun c (hc : c ∈ n.children) =>
      lowerExpr_blocksIf hplaced hclass (h.child hc) (hexpr hc)
    have htyped := fun c (hc : c ∈ n.children) =>
      sc.hasLoweredType hplaced hclass (h.child hc) (hexpr hc)
    have hvalue := lowerExpr_blocksIf hplaced hclass h hn .void
    obtain ⟨i, p, k⟩ := n
    cases k with
    | paren inner =>
      rw [all_preorder_of_single rfl rfl]
      exact ih inner List.mem_cons_self (h.child List.mem_cons_self) (hexpr List.mem_cons_self)
    | call receiver method arguments =>
      obtain ⟨t, ht, htarget⟩ := htyped receiver List.mem_cons_self .object
      rw [lowerDropped_call]
      refine (lowerCall_blocksIf (i := i) (p := p) ht htarget hchild _).bind fun a ha => .pure ?_
      rw [← ha]
      simp [Instr.hasBlock]
    | _ => exact hvalue.bind fun v hv => .pure hv.1

theorem lowerStmts_blocksIf {ns : List Node} (h : ∀ n ∈ ns, Yields (sc.lowerStmt n)
      (fun code => code.all Instr.hasBlock = n.preorder.all sc.isEmittable) fun _ => True) :
    Yields (sc.lowerStmts ns) (fun code => code.all Instr.hasBlock =
      ns.all fun n => n.preorder.all sc.isEmittable) fun _ => True := by
  induction ns with
  | nil => exact .pure rfl
  | cons n ns ih =>
    obtain ⟨hn, hns⟩ := List.forall_mem_cons.mp h
    refine hn.bind fun p hp => (ih hns).bind fun q hq => .pure ?_
    rw [List.all_append, hp, hq, List.all_cons]

theorem all_hasBlock_closeWith (code : Code) (target : String) :
    (closeWith code target).all Instr.hasBlock = code.all Instr.hasBlock := by
  unfold closeWith
  split
  · rfl
  · simp [Instr.hasBlock]

/-- A statement names no class. -/
theorem namesClass_of_isStmt (hn : n.IsStmt) : sc.namesClass n = false := by
  obtain ⟨i, p, k⟩ := n
  cases k <;> first | rfl | cases hn

/-- **The code for a statement that passes all checks has blocks exactly if its nodes use values
only.** -/
theorem lowerStmt_blocksIf (hplaced : sc.placed = none) (hclass : IsIdentifier sc.table.className)
    (h : sc.Approves n) (hn : n.IsStmt) : Yields (sc.lowerStmt n)
      (fun code => code.all Instr.hasBlock = n.preorder.all sc.isEmittable) fun _ => True := by
  induction n using Node.induction with
  | step n ih =>
    have hexpr {c : Node} (hc : c ∈ n.children) (hc' : c.IsExpr) (d : Ty) :=
      lowerExpr_blocksIf hplaced hclass (h.child hc) hc' d
    have hstmt {c : Node} (hc : c ∈ n.children) (hc' : c.IsStmt) : Yields (sc.lowerStmt c)
        (fun code => code.all Instr.hasBlock =
          (c.preorder.all sc.isEmittable && !sc.namesClass c)) fun _ => True := by
      rw [namesClass_of_isStmt hc', Bool.not_false, Bool.and_true]
      exact ih c hc (h.child hc) hc'
    have hchildren := sc.all_isEmittable (n := n)
    have hfits := h.wellFormed.fits
    obtain ⟨i, p, k⟩ := n
    cases k with
    | assign target value =>
      rw [hchildren rfl]
      have hvalue := hexpr List.mem_cons_self (hfits value List.mem_cons_self)
        (sc.targetDemand target)
      refine (lowerAssign_blocksIf hvalue target p).mono fun code hcode => ?_
      simp [Node.children, Kind.children, hcode]
    | arrayAssign target index value =>
      rw [hchildren rfl]
      have hmem : value ∈ [index, value] := mem_second
      have hindex := hexpr List.mem_cons_self (hfits index List.mem_cons_self) .int
      have hvalue := hexpr hmem (hfits value hmem) (sc.elementDemand target)
      refine (lowerArrayName_blocks target p).bind fun array harray => ?_
      refine hindex.bind fun j hj => hvalue.bind fun v hv => .pure ?_
      simp only [List.all_append, harray, hj.1, hv.1, List.all_cons, List.all_nil, Instr.hasBlock,
        hj.2, hv.2, Node.children, Kind.children]
      grind
    | returning value =>
      rw [hchildren rfl]
      cases value with
      | none => exact .pure rfl
      | some value =>
        have hvalue := hexpr List.mem_cons_self (hfits value List.mem_cons_self) sc.resultDemand
        refine hvalue.bind fun v hv => .pure ?_
        simp [Node.children, Kind.children, Instr.hasBlock, hv.1, hv.2]
    | ifElse c thenBranch elseBranch =>
      rw [hchildren rfl]
      obtain ⟨hc, hthen, helse⟩ := hfits
      have hcond := hexpr List.mem_cons_self hc .boolean
      have hthen := hstmt mem_second hthen
      cases elseBranch with
      | none =>
        refine .seq fun k => hcond.bind fun v hv => hthen.bind fun thenCode ht => .pure ?_
        simp only [List.all_append, List.all_cons, List.all_nil, Instr.hasBlock, hv.1, hv.2, ht,
          Node.children, Kind.children, Option.toList_none]
        grind
      | some elseBranch =>
        have helse := hstmt mem_third
          (helse elseBranch rfl)
        refine .seq fun k => hcond.bind fun v hv => helse.bind fun elseCode he => ?_
        refine hthen.bind fun thenCode ht => .pure ?_
        simp only [List.all_append, all_hasBlock_closeWith, List.all_cons, List.all_nil,
          Instr.hasBlock, hv.1, hv.2, ht, he, Node.children, Kind.children, Option.toList_some]
        grind
    | whileLoop c body =>
      rw [hchildren rfl]
      obtain ⟨hc, hbody⟩ := hfits
      have hcond := hexpr List.mem_cons_self hc .boolean
      have hbody := hstmt mem_second hbody
      refine .seq fun k => hcond.bind fun v hv => hbody.bind fun bodyCode hb => .pure ?_
      simp only [List.all_append, List.all_cons, List.all_nil, Instr.hasBlock, hv.1, hv.2, hb,
        Node.children, Kind.children]
      grind
    | block statements =>
      have hhere : sc.isEmittable ⟨i, p, .block statements⟩ = true :=
        List.all_eq_true.mpr fun c hc => by rw [namesClass_of_isStmt (hfits c hc), Bool.not_false]
      rw [all_preorder, hhere, Bool.true_and]
      exact lowerStmts_blocksIf fun c hc => ih c hc (h.child hc) (hfits c hc)
    | exprStmt e =>
      rw [all_preorder_of_single rfl rfl]
      exact lowerDropped_blocksIf hplaced hclass (h.child List.mem_cons_self)
        (hfits e List.mem_cons_self)
    | _ => cases hn

end Scope

/-! ## Methods -/

section Method

variable {n : Node} {s s' : Supply} {m : Method}

/-- A declaration of a parameter or a variable names no class. -/
theorem isEmittable_of_declaration (sc : Scope) {c : Node}
    (h : c.label = .param ∨ c.label = .varDecl) : sc.namesClass c = false ∧ sc.isEmittable c = true := by
  obtain ⟨i, p, k⟩ := c
  cases k with
  | param | varDecl => exact ⟨rfl, rfl⟩
  | _ => rcases h with h | h <;> cases h

/-- All nodes of a method use values only. -/
def Node.isEmittable (table : SymbolTable) (m : Node) : Bool :=
  match m.kind with
  | .methodDecl head _ _ _ => m.preorder.all (Scope.ofMethod table head).isEmittable
  | _ => false

/-- **The code of a method that passes all checks has blocks exactly if its nodes use values
only.** -/
theorem all_hasBlock_of_lowerMethod {table : SymbolTable} {head : MethodHead}
    {params locals body : List Node} (hclass : IsIdentifier table.className)
    (hkind : n.kind = .methodDecl head params locals body)
    (h : (Scope.ofMethod table head).Approves n)
    (hm : (lowerMethod (Scope.ofMethod table) n).run s = .ok (m, s')) :
    m.code.all Instr.hasBlock = n.isEmittable table := by
  obtain ⟨head', params', locals', body', code, hkind', hcode, -, -, -, hbody⟩ :=
    lowerMethod_eq_ok hm
  cases hkind.symm.trans hkind'
  have hfits := h.wellFormed.fits
  have hchildren : n.children = params ++ locals ++ body := by
    rw [Node.children, hkind]
    rfl
  rw [hkind] at hfits
  obtain ⟨hparams, hlocals, hstmts⟩ := hfits
  have hhere : (Scope.ofMethod table head).isEmittable n = true := by
    unfold Scope.isEmittable
    rw [hkind, hchildren]
    refine List.all_eq_true.mpr fun c hc => ?_
    rcases List.mem_append.mp hc with hc | hc
    · rw [(isEmittable_of_declaration _
        ((List.mem_append.mp hc).imp (hparams c) (hlocals c))).1, Bool.not_false]
    · rw [Scope.namesClass_of_isStmt (hstmts c hc), Bool.not_false]
  have hblocks := (Scope.lowerStmts_blocksIf fun c hc =>
    Scope.lowerStmt_blocksIf rfl hclass (h.child (hchildren ▸ List.mem_append_right _ hc))
      (hstmts c hc)).of_run hcode
  rw [Node.isEmittable, hkind]
  simp only
  rw [all_preorder_of_method hkind h.wellFormed hhere fun c hc =>
    (isEmittable_of_declaration _ hc).2, ← hblocks]
  rcases hbody with ⟨hm, -⟩ | ⟨hm, -⟩
  · rw [hm, List.all_append]
    simp [Instr.hasBlock]
  · rw [hm]

end Method

/-! ## Programs -/

namespace Jvm

/-- All elements of a list are mapped exactly if each of them is. -/
theorem exists_mapM_eq_ok {α β ε : Type} {f : α → Except ε β} {as : List α} :
    (∃ bs, as.mapM f = .ok bs) ↔ ∀ a ∈ as, ∃ b, f a = .ok b := by
  induction as with
  | nil => exact ⟨fun _ _ h => (nomatch h), fun _ => ⟨[], rfl⟩⟩
  | cons a as ih =>
    rw [List.forall_mem_cons, ← ih, List.mapM_cons]
    cases f a with
    | error e => exact ⟨nofun, nofun⟩
    | ok b =>
      cases as.mapM f with
      | error e => exact ⟨nofun, nofun⟩
      | ok bs => exact ⟨fun _ => ⟨⟨b, rfl⟩, ⟨bs, rfl⟩⟩, fun _ => ⟨b :: bs, rfl⟩⟩

/-- A class has assembly exactly if each of its methods is emitted. -/
theorem exists_assemble_eq_ok {limit : Option Nat} {unit : ClassUnit} :
    (∃ text, assemble limit unit = .ok text) ↔
      ∀ m ∈ unit.methods, ∃ e, emitMethod (.ofUnit unit) limit m = .ok e := by
  rw [← exists_mapM_eq_ok]
  simp only [assemble]
  cases unit.methods.mapM (emitMethod (.ofUnit unit) limit) with
  | error e => exact ⟨nofun, nofun⟩
  | ok es => exact ⟨fun _ => ⟨es, rfl⟩, fun _ => ⟨_, rfl⟩⟩

theorem all_eq_of_forall₂ {α β : Type} {p : α → Bool} {q : β → Bool} {as : List α} {bs : List β}
    (h : List.Forall₂ (fun a b => p a = q b) as bs) : as.all p = bs.all q := by
  induction h with
  | nil => rfl
  | cons hab _ ih => rw [List.all_cons, List.all_cons, hab, ih]

/-- **An accepted program with three-address code has assembly exactly if the nodes of its methods
use values only**: no class stands where a value is needed, and methods are called on imports and on
objects. -/
theorem exists_assemble_eq_ok_iff {source : String} {root : Node} {table : SymbolTable}
    (h : Accepted source root table) {unit : ClassUnit} (hlower : lower table root = .ok unit) :
    (∃ text, assemble none unit = .ok text) ↔ ∀ m ∈ root.methods, m.isEmittable table = true := by
  have hmethods := (List.forall₂_and_left _ _).mpr ⟨fun n hn => hn, forall₂_lowerMethod hlower⟩
  have hblocks : List.Forall₂ (fun n m => n.isEmittable table = m.code.all Instr.hasBlock)
      root.methods unit.methods := hmethods.imp fun n m ⟨hn, s, s', hs, hrun⟩ => by
    obtain ⟨head, params, locals, body, hkind, happroves⟩ := h.approves hn
    exact (all_hasBlock_of_lowerMethod h.isIdentifier_className hkind happroves hrun).symm
  have hemitted (m : Method) : (∃ e, emitMethod (.ofUnit unit) none m = .ok e) ↔
      m.code.all Instr.hasBlock = true := by
    simp only [emitMethod_eq_ok, reduceCtorEq, false_implies, implies_true, true_and,
      exists_and_left, exists_eq, and_true]
  rw [exists_assemble_eq_ok, ← List.all_eq_true, all_eq_of_forall₂ hblocks, List.all_eq_true]
  exact forall₂_congr fun m _ => hemitted m

/-- A static call of an import, and a call on a new object of another. -/
theorem exists_assemble_eq_ok_iff_imports : ∃ root table unit,
    Accepted "import io;import B;class A{int f(int a){io.p(a);return (new B()).f(a);}}" root table ∧
      lower table root = .ok unit ∧ ∃ text, assemble none unit = .ok text := by
  obtain ⟨root, table, h, hp⟩ := Accepted.exists_of_any
    "import io;import B;class A{int f(int a){io.p(a);return (new B()).f(a);}}"
    (fun root table => (lower table root).isOk && root.methods.all (Node.isEmittable table))
    (by decide +kernel)
  obtain ⟨hlower, hemittable⟩ := (Bool.and_eq_true _ _).mp hp
  cases hunit : lower table root with
  | error e => simp [hunit, Except.isOk, Except.toBool] at hlower
  | ok unit =>
    exact ⟨root, table, unit, h, hunit,
      (exists_assemble_eq_ok_iff h hunit).mpr (List.all_eq_true.mp hemittable)⟩

/-- A method may be called on a `String` by the checks, but there is no assembly for that. -/
theorem assemble_ne_ok_string : ∃ root table unit,
    Accepted "class A{int f(String s){return s.size();}}" root table ∧
      lower table root = .ok unit ∧ ∀ text, assemble none unit ≠ .ok text := by
  obtain ⟨root, table, h, hp⟩ := Accepted.exists_of_any "class A{int f(String s){return s.size();}}"
    (fun root table => match lower table root with
      | .ok unit => unit.methods.any fun m => !(emitMethod (.ofUnit unit) none m).isOk
      | .error _ => false)
    (by decide +kernel)
  split at hp
  · rename_i unit hunit
    obtain ⟨m, hm, hfails⟩ := List.any_eq_true.mp hp
    refine ⟨root, table, unit, h, hunit, fun text htext => ?_⟩
    obtain ⟨e, he⟩ := exists_assemble_eq_ok.mp ⟨text, htext⟩ m hm
    simp only [he] at hfails
    cases hfails
  · cases hp

end Jvm

end MiniJava
