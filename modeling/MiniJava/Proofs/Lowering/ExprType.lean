import MiniJava.Proofs.Accepted
import MiniJava.Proofs.Lowering.CallType

/-!
# The types of lowered expressions

An expression gets its type twice: `typeOf?` computes it for the checks, and `lowerExpr` returns an
operand that carries a type. In an accepted program both always exist and agree, unless the
expression has a call without result where a value is needed; that is the only way in which the
lowering of an expression fails.

The checks are what makes it so. Every name means something, what is indexed is an array, and the
operand of a negation is a truth value. A class has an identifier for a name, so that its name is
not taken for that of a basic type.
-/

namespace MiniJava

open Ir

/-- The failure is a call without result where a value is needed. -/
def Ir.LoweringError.IsVoidValue (e : LoweringError) : Prop :=
  ∃ method p, e = .voidValue method p

/-! ## Types with and without names -/

theorem Ir.IrType.ofName_of_isIdentifier {name : String} (h : IsIdentifier name) :
    IrType.ofName name = .classRef name := by
  unfold IrType.ofName
  split
  · exact absurd rfl (h.ne_text .intKw)
  · exact absurd rfl (h.ne_text .booleanKw)
  · exact absurd rfl (h.ne_text .voidKw)
  · exact absurd rfl (h.ne_text .stringKw)
  · rfl

theorem Ir.IrType.ofTy_ofClass {name : String} (h : IsIdentifier name) :
    IrType.ofTy (.ofClass name) = .classRef name :=
  ofName_of_isIdentifier h

theorem Ir.IrType.ofTy_element {t : Ty} (h : t.isArray = true) :
    (IrType.ofTy t).element = IrType.ofTy t.element := by
  unfold IrType.ofTy
  rw [if_pos h]
  rfl

theorem Ty.eq_boolean_of_isBoolean {t : Ty} (h : t.isBoolean = true) : t = .boolean := by
  obtain ⟨name, isArray⟩ := t
  simp only [isBoolean, Bool.and_eq_true, Bool.not_eq_true', beq_iff_eq] at h
  obtain ⟨rfl, rfl⟩ := h
  rfl

theorem Ir.BinOp.ofTy_resultType {op : BinaryOp} {op' : BinOp}
    (h : BinOp.ofOperator? op = some op') :
    op'.resultType = IrType.ofTy (if op.isArithmetic then .int else .boolean) := by
  cases op <;> cases h <;> rfl

/-! ## Lowerings with a type -/

namespace Ir.Lower

variable {E : LoweringError → Prop} {x : Lower Value} {t : IrType}

/-- The operand has this type. -/
abbrev Typed (x : Lower Value) (t : IrType) (E : LoweringError → Prop) : Prop :=
  Yields x (fun v => v.operand.type = t) E

theorem temp_yields (t : IrType) : Yields (temp t) (fun x => x.type = t) E :=
  .state fun _ _ => rfl

theorem label_yields (k : LabelKind) : Yields (label k) (fun _ => True) E :=
  .state fun _ _ => trivial

theorem assignTemp_typed (code : Code) (rhs : Rhs) : Typed (assignTemp code rhs) rhs.type E :=
  (temp_yields rhs.type).bind fun _ h => .pure h

theorem toVar_yields {v : Value} (h : v.operand.type = t) :
    Yields (toVar v) (fun p => p.1.type = t) E := by
  unfold toVar
  split
  · rename_i x hx
    rw [hx] at h
    exact .pure h
  · refine (temp_yields v.operand.type).bind fun x hx => .pure ?_
    exact hx.trans h

theorem inOrder_yields {xs : List (Lower Value)} (h : ∀ x ∈ xs, Yields x (fun _ => True) E) :
    Yields (inOrder xs) (fun _ => True) E := by
  induction xs with
  | nil => exact .pure trivial
  | cons x xs ih =>
    obtain ⟨hx, hxs⟩ := List.forall_mem_cons.mp h
    exact hx.bind fun _ _ => (ih hxs).bind fun _ _ => .pure trivial

theorem storeFrom_yields {xs : List (Lower Value)} (array : Var) (index : Nat)
    (h : ∀ x ∈ xs, Yields x (fun _ => True) E) :
    Yields (storeFrom array index xs) (fun _ => True) E := by
  induction xs generalizing index with
  | nil => exact .pure trivial
  | cons x xs ih =>
    obtain ⟨hx, hxs⟩ := List.forall_mem_cons.mp h
    exact hx.bind fun _ _ => (ih (index + 1) hxs).bind fun _ _ => .pure trivial

theorem packArray_yields {xs : List (Lower Value)} (t : IrType)
    (h : ∀ x ∈ xs, Yields x (fun _ => True) E) :
    Yields (packArray t xs) (fun p => p.1.type = t) E :=
  (temp_yields t).bind fun array hx => (storeFrom_yields array 0 h).bind fun _ _ => .pure hx

theorem binary_typed {op : BinaryOp} {a b : Lower Value} (ha : Yields a (fun _ => True) E)
    (hb : Yields b (fun _ => True) E) :
    Typed (binary op a b) (.ofTy (if op.isArithmetic then .int else .boolean)) E := by
  have hlogical (k : LabelKind) (code : Nat → Var → Value → Value → Code) :
      Typed (do
        let n ← label k
        let result ← temp .boolean
        let a ← a
        let b ← b
        return ⟨.var result, code n result a b⟩) .boolean E :=
    (label_yields k).bind fun n _ => (temp_yields .boolean).bind fun result hresult =>
      ha.bind fun _ _ => hb.bind fun _ _ => .pure hresult
  have hvalue {op' : BinOp} (hop : BinOp.ofOperator? op = some op') : Typed (do
        let a ← a
        let b ← b
        assignTemp (a.code ++ b.code) (.binary op' a.operand b.operand))
      (.ofTy (if op.isArithmetic then .int else .boolean)) E := by
    rw [← BinOp.ofTy_resultType hop]
    exact ha.bind fun a _ => hb.bind fun b _ => assignTemp_typed _ _
  cases op with
  | and => exact hlogical .and _
  | or => exact hlogical .or _
  | _ => exact hvalue rfl

end Ir.Lower

/-! ## Expressions -/

theorem simpleName_of_qualifiedImport? {t : SymbolTable} {name path : String}
    (h : t.qualifiedImport? name = some path) : simpleName path = name := by
  unfold SymbolTable.qualifiedImport? at h
  have hname := List.find?_some h
  exact beq_iff_eq.mp hname

namespace Scope

variable {sc : Scope} {n : Node}

/-- Only imports are bound to imports. -/
theorem qualifiedImport?_of_lookup? {name path : String}
    (h : sc.lookup? name = some (.imported path)) : sc.table.qualifiedImport? name = some path := by
  unfold lookup? at h
  split at h
  · rename_i hpath
    cases h
    exact hpath
  · simp only at h
    repeat' split at h
    all_goals simp only [Option.map_eq_some_iff, reduceCtorEq, Option.some.injEq, and_false,
      exists_const] at h

/-- A name that means an import is the simple name of it. -/
theorem simpleName_of_lookup? {name path : String}
    (h : sc.lookup? name = some (.imported path)) : simpleName path = name :=
  simpleName_of_qualifiedImport? (qualifiedImport?_of_lookup? h)

/-- What a name means has the type that the lowering of the name has. -/
theorem lowerName_typed {name : String} {b : Binding} (hname : IsIdentifier name)
    (hb : sc.lookup? name = some b) (p : Position) {E : LoweringError → Prop} :
    Lower.Typed (sc.lowerName name p) (.ofTy b.type) E := by
  unfold lowerName
  rw [hb]
  cases b with
  | imported path =>
    refine .pure ?_
    rw [Binding.type, simpleName_of_lookup? hb]
    exact (IrType.ofTy_ofClass hname).symm
  | param i t => exact .pure rfl
  | «local» t => exact .pure rfl
  | field t => exact Lower.assignTemp_typed _ _

/-! ### Calls -/

theorem lowerArguments_yields {E : LoweringError → Prop} (receiver : Node) (method : String)
    (arguments : List Node) {values : List (Lower Value)}
    (h : ∀ x ∈ values, Yields x (fun _ => True) E) :
    Yields (sc.lowerArguments receiver method arguments values) (fun _ => True) E := by
  have htake (k : Nat) : Yields (Lower.inOrder (values.take k)) (fun _ => True) E :=
    Lower.inOrder_yields fun x hx => h x (List.mem_of_mem_take hx)
  have hdrop (k : Nat) : Yields (Lower.inOrder (values.drop k)) (fun _ => True) E :=
    Lower.inOrder_yields fun x hx => h x (List.mem_of_mem_drop hx)
  unfold lowerArguments
  simp only
  split
  · refine (htake _).bind fun fixed _ => .ite (fun _ => ?_) fun _ => ?_
    · refine (hdrop _).bind fun _ _ => ?_
      exact .pure trivial
    · refine (Lower.packArray_yields _ fun x hx => h x (List.mem_of_mem_drop hx)).bind fun _ _ => ?_
      exact .pure trivial
  · exact Lower.inOrder_yields h

theorem lowerCall_yields {E : LoweringError → Prop} (t : IrType) (receiver : Node)
    (method : String) (arguments : List Node) {target : Lower Value} {values : List (Lower Value)}
    (htarget : Yields target (fun _ => True) E) (h : ∀ x ∈ values, Yields x (fun _ => True) E) :
    Yields (sc.lowerCall t receiver method arguments target values)
      (fun p => p.1.returnType = t) E := by
  have harguments := sc.lowerArguments_yields receiver method arguments h
  unfold lowerCall
  split
  · simp only [pure_bind]
    exact harguments.bind fun _ _ => .pure rfl
  · refine htarget.bind fun v _ => ?_
    simp only [pure_bind]
    exact harguments.bind fun _ _ => .pure rfl

theorem lowerEach_yields {E : LoweringError → Prop} {ns : List Node}
    (h : ∀ n ∈ ns, ∀ d, Yields (sc.lowerExpr d n) (fun _ => True) E) (ds : List Ty) :
    ∀ x ∈ sc.lowerEach ds ns, Yields x (fun _ => True) E := by
  induction ns generalizing ds with
  | nil => exact fun _ hx => nomatch hx
  | cons n ns ih =>
    obtain ⟨hn, hns⟩ := List.forall_mem_cons.mp h
    exact List.forall_mem_cons.mpr ⟨hn _, ih hns ds.tail⟩

/-! ### All expressions -/

/-- The type of an expression exists, and the lowering of it yields it or fails for want of a
value. -/
def HasLoweredType (sc : Scope) (d : Ty) (n : Node) : Prop :=
  ∃ t, sc.typeOf? d n = some t ∧ Lower.Typed (sc.lowerExpr d n) (.ofTy t) LoweringError.IsVoidValue

theorem HasLoweredType.yields {d : Ty} (h : sc.HasLoweredType d n) :
    Yields (sc.lowerExpr d n) (fun _ => True) LoweringError.IsVoidValue := by
  obtain ⟨t, -, h⟩ := h
  exact h.mono fun _ _ => trivial

/-- What is indexed or measured has the type of an array. -/
theorem isArray_of_checkArray {array : Node} {t : Ty} (ht : sc.typeOf? .intArray array = some t)
    (hcheck : sc.checkArray array = []) : t.isArray = true := by
  unfold checkArray at hcheck
  rw [ht] at hcheck
  simp only [ite_eq_left_iff, reduceCtorEq, imp_false, not_not] at hcheck
  exact hcheck

/-- **An expression that passes all checks has a type, and its lowering yields an operand of that
type or fails for want of a value**, whatever is demanded of it. -/
theorem hasLoweredType (hplaced : sc.placed = none) (hclass : IsIdentifier sc.table.className)
    (h : sc.Approves n) (hn : n.IsExpr) (d : Ty) : sc.HasLoweredType d n := by
  induction n using Node.induction generalizing d with
  | step n ih =>
    have ih (c : Node) (hc : c ∈ n.children) (d : Ty) : sc.HasLoweredType d c :=
      ih c hc (h.child hc) (h.wellFormed.isExpr_of_mem_children hn hc) d
    have hfits := h.wellFormed.fits
    have htypes := h.typesHere
    have hnames := h.namesHere
    obtain ⟨i, p, k⟩ := n
    cases k with
    | program | importDecl | classDecl | varDecl | methodDecl | param | assign | arrayAssign
    | returning | ifElse | whileLoop | block | exprStmt => cases hn
    | intLit value => exact ⟨.int, rfl, .pure rfl⟩
    | boolLit value => exact ⟨.boolean, rfl, .pure rfl⟩
    | this => exact ⟨sc.table.classType, rfl, .pure (IrType.ofTy_ofClass hclass).symm⟩
    | varRef name =>
      cases hb : sc.lookup? name with
      | none => simp [checkNamesAt, hb] at hnames
      | some b =>
        refine ⟨b.type, ?_, lowerName_typed hfits hb p⟩
        simp only [typeOf?, ownType?, variableType?, hb, Option.map_some]
    | paren inner => exact ih inner List.mem_cons_self d
    | binary op left right =>
      have hl := ih left List.mem_cons_self (sc.operandDemands op left right).1
      have hr := ih right mem_second
        (sc.operandDemands op left right).2
      exact ⟨if op.isArithmetic then .int else .boolean, rfl, Lower.binary_typed hl.yields hr.yields⟩
    | unary op operand =>
      obtain ⟨t, ht, hlower⟩ := ih operand List.mem_cons_self .boolean
      simp only [checkTypesAt, ht, ite_eq_left_iff, reduceCtorEq, imp_false, not_not] at htypes
      cases op
      refine ⟨t, ht, hlower.bind fun v hv => ?_⟩
      rw [Ty.eq_boolean_of_isBoolean htypes]
      exact Lower.assignTemp_typed _ _
    | newObject className =>
      refine ⟨.ofClass className, rfl, (Lower.assignTemp_typed _ _).bind fun v hv => .pure ?_⟩
      rw [IrType.ofTy_ofClass hfits]
      exact hv
    | newArray element size =>
      refine ⟨(Ty.ofExpr element).array, rfl, ?_⟩
      exact (ih size List.mem_cons_self .int).yields.bind fun v _ => Lower.assignTemp_typed _ _
    | arrayAccess array index =>
      simp only [checkTypesAt, List.append_eq_nil_iff] at htypes
      obtain ⟨t, ht, hlower⟩ := ih array List.mem_cons_self .intArray
      have hindex := (ih index mem_second .int).yields
      refine ⟨t.element, ?_, ?_⟩
      · simp only [typeOf?, ht, Option.map_some]
      · rw [← IrType.ofTy_element (isArray_of_checkArray ht htypes.1)]
        refine hlower.bind fun v hv => (Lower.toVar_yields hv).bind fun (x, code) hx => ?_
        refine hindex.bind fun i _ => ?_
        rw [← hx]
        exact Lower.assignTemp_typed _ _
    | arrayLength array =>
      have harray := (ih array List.mem_cons_self .intArray).yields
      refine ⟨.int, rfl, harray.bind fun v _ => (Lower.toVar_yields rfl).bind fun (x, code) _ => ?_⟩
      exact Lower.assignTemp_typed _ _
    | arrayLit elements =>
      have heach := sc.lowerEach_yields (fun c hc d => (ih c hc d).yields)
        (sc.elementDemands elements)
      have htype : ∃ t, sc.typeOf? d ⟨i, p, .arrayLit elements⟩ = some t := by
        cases elements with
        | nil => exact ⟨.intArray, rfl⟩
        | cons e es =>
          obtain ⟨t, ht, -⟩ := ih e List.mem_cons_self (sc.firstKnown es)
          refine ⟨t.array, ?_⟩
          simp only [typeOf?, hplaced, Option.isSome_none, Bool.false_eq_true, if_false, ht,
            Option.map_some]
      obtain ⟨t, ht⟩ := htype
      refine ⟨t, ht, ?_⟩
      unfold lowerExpr
      rw [ht]
      exact (Lower.packArray_yields _ heach).bind fun _ hx => .pure hx
    | call receiver method arguments =>
      obtain ⟨t, ht⟩ := sc.exists_typeOf?_call d i p receiver method arguments
      have heach := sc.lowerEach_yields
        (fun c hc d => (ih c (List.mem_cons_of_mem _ hc) d).yields)
        (sc.argumentDemands receiver method arguments)
      refine ⟨t, ht, ?_⟩
      rw [lowerExpr_call, ht]
      refine (sc.lowerCall_yields (.ofTy t) receiver method arguments
        (ih receiver List.mem_cons_self .object).yields heach).bind fun lowered hc => ?_
      obtain ⟨c, code⟩ := lowered
      by_cases hvoid : c.returnType = .void
      · simp only [hvoid, if_true]
        have hvoid : LoweringError.IsVoidValue (.voidValue method p) := ⟨method, p, rfl⟩
        exact (Yields.throw (P := fun _ => False) hvoid).bind fun _ h => h.elim
      · simp only [hvoid, if_false]
        rw [← hc]
        exact Lower.assignTemp_typed _ _

end Scope

/-! ## Accepted programs -/

/-- **In an accepted program every expression has a type, and the operand that its lowering yields
has the same**: the only failure is a call without result where a value is needed. This holds of
every expression in every method, whatever is demanded of it. -/
theorem typeOf?_eq_type_lowerExpr {source : String} {root m e : Node} {table : SymbolTable}
    (h : Accepted source root table) (hm : m ∈ root.methods) {head : MethodHead}
    {params locals body : List Node} (hkind : m.kind = .methodDecl head params locals body)
    (he : e ∈ m.preorder) (hexpr : e.IsExpr) (d : Ty) :
    ∃ t, (Scope.ofMethod table head).typeOf? d e = some t ∧
      ∀ supply, match ((Scope.ofMethod table head).lowerExpr d e).run supply with
        | .ok (v, _) => v.operand.type = .ofTy t
        | .error x => ∃ method p, x = .voidValue method p := by
  have happroves := h.approves_of_mem_preorder (Node.mem_preorder_of_mem_methods hm).1 hkind
  obtain ⟨t, ht, hlower⟩ := Scope.hasLoweredType rfl h.isIdentifier_className
    (happroves.of_mem_preorder he (preorder_infix_of_mem_preorder he).subset) hexpr d
  refine ⟨t, ht, fun supply => ?_⟩
  have hsupply := hlower supply
  split <;> rename_i hrun <;> rw [hrun] at hsupply
  · exact hsupply
  · exact hsupply

/-- The sum in this method is an expression of an accepted program. -/
theorem typeOf?_eq_type_lowerExpr_sum : ∃ root table,
    Accepted "class A{int f(int a){return a+1;}}" root table ∧
      ∃ m ∈ root.methods, ∃ head params locals body,
        m.kind = .methodDecl head params locals body ∧ ∃ e ∈ m.preorder, e.label = .binary ∧
          ∃ t, (Scope.ofMethod table head).typeOf? .int e = some t ∧
            ∀ supply, match ((Scope.ofMethod table head).lowerExpr .int e).run supply with
              | .ok (v, _) => v.operand.type = .ofTy t
              | .error x => ∃ method p, x = .voidValue method p := by
  obtain ⟨root, table, h, hp⟩ := Accepted.exists_of_any
    "class A{int f(int a){return a+1;}}"
    (fun root _ => root.methods.any fun m => m.preorder.any (·.label = .binary))
    (by decide +kernel)
  simp only [List.any_eq_true, decide_eq_true_eq] at hp
  obtain ⟨m, hm, e, he, hlabel⟩ := hp
  obtain ⟨head, params, locals, body, hkind, -⟩ := h.approves hm
  have hexpr : e.IsExpr := by
    rw [Node.IsExpr, hlabel]
    rfl
  exact ⟨root, table, h, m, hm, head, params, locals, body, hkind, e, he, hlabel,
    typeOf?_eq_type_lowerExpr h hm hkind he hexpr .int⟩

end MiniJava
