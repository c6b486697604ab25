import MiniJava.Proofs.Lowering.Fitting
import MiniJava.Proofs.Lowering.Regular

/-!
# The three-address code of accepted programs is well-typed

Every expression and statement that passes the checks gives well-typed code (`lowerExpr_gives`,
`lowerStmt_gives`); the types of operands are those that the checks have compared
(`hasLoweredType`). So the methods of an accepted program are well-typed, and their variables have the
types that they are declared with (`wellTyped_of_lower`).
-/

namespace MiniJava

open Ir

namespace Scope

open Lower

variable {sc : Scope} {n : Node}

/-! ## Expressions -/

/-- A call that passes the checks is well-typed, and so is the code for its operands. -/
theorem call_gives (hrows : sc.TakesRowsInArrays)
    {receiver : Node} {method : String} {arguments : List Node}
    (hcheck : sc.checkCall n receiver method arguments = []) (hreceiver : receiver.WellFormed)
    (h : ∀ c ∈ receiver :: arguments, ∀ d, ∃ t, sc.typeOf? d c = some t ∧
      GivesTyped sc.context sc.Knows (.ofTy t) (sc.lowerExpr d c)) (t : IrType) :
    Gives sc.Knows (sc.lowerCall t receiver method arguments (sc.lowerExpr .object receiver)
        (sc.lowerEach (sc.argumentDemands receiver method arguments) arguments)) fun Γ a =>
      a.1.In sc.context Γ ∧ CodeIn sc.context Γ a.2 := by
  obtain ⟨hfirst, hrest⟩ := List.forall_mem_cons.mp h
  obtain ⟨r, hr, htarget⟩ := hfirst .object
  have hlength : (sc.argumentDemands receiver method arguments).length = arguments.length := by
    unfold argumentDemands
    split <;> simp
  obtain ⟨ts, hts, hvalues⟩ := lowerEach_gives hrest hlength
  simp only [checkCall, hr] at hcheck
  split at hcheck
  · cases hcheck
  · rename_i hprimitive
    have hchecked : sc.isLocalReceiver receiver = true → sc.table.hasMethod method = true →
        sc.checkArguments n receiver method arguments = [] := by
      intro hlocal hmethod
      simpa [hlocal, hmethod] using hcheck
    obtain ⟨hrow, hfit⟩ := arguments_fit hrows hts hchecked
    refine lowerCall_gives (fun hr' => ?_) (IrType.isReference_ofTy (by simpa using hprimitive)).1
      (fun name hname => ?_) htarget hvalues hrow hfit t
    · rw [isLocalReceiver, hr, IrType.eq_ofClass_of_ofTy hr']
      exact decide_eq_true rfl
    · obtain ⟨i, p, k⟩ := receiver
      unfold staticReceiver? at hname
      split at hname
      · rename_i name' hkind
        dsimp only at hkind
        subst hkind
        split at hname
        · rename_i path hpath
          cases hname
          have hr' : sc.typeOf? .object ⟨i, p, .varRef name'⟩ = some (.ofClass (simpleName path)) := by
            simp only [typeOf?, ownType?, variableType?, hpath, Option.map_some, Binding.type]
          obtain rfl := Option.some.inj (hr.symm.trans hr')
          rw [simpleName_of_lookup? hpath]
          exact IrType.ofTy_ofClass hreceiver.fits
        · cases hname
      · cases hname

/-- **The code for an expression that passes all checks is well-typed.** -/
theorem lowerExpr_gives (hplaced : sc.placed = none) (hclass : IsIdentifier sc.table.className)
    (hrows : sc.TakesRowsInArrays) (h : sc.Approves n) (hn : n.IsExpr) (d : Ty) :
    GivesValue sc.context sc.Knows (sc.lowerExpr d n) := by
  induction n using Node.induction generalizing d with
  | step n ih =>
    have hexpr {c : Node} (hc : c ∈ n.children) : c.IsExpr :=
      h.wellFormed.isExpr_of_mem_children hn hc
    have ih (c : Node) (hc : c ∈ n.children) (d : Ty) :
        GivesValue sc.context sc.Knows (sc.lowerExpr d c) :=
      ih c hc (h.child hc) (hexpr hc) d
    have htyped (c : Node) (hc : c ∈ n.children) (d : Ty) : ∃ t, sc.typeOf? d c = some t ∧
        GivesTyped sc.context sc.Knows (.ofTy t) (sc.lowerExpr d c) := by
      obtain ⟨t, ht, hlower⟩ := sc.hasLoweredType hplaced hclass (h.child hc) (hexpr hc) d
      exact ⟨t, ht, (ih c hc d).and_yields hlower⟩
    have htypes := h.typesHere
    have hnames := h.namesHere
    have hstructure := h.structuredHere
    have hwellFormed {c : Node} (hc : c ∈ n.children) : c.WellFormed := (h.child hc).wellFormed
    obtain ⟨i, p, k⟩ := n
    cases k with
    | program | importDecl | classDecl | varDecl | methodDecl | param | assign | arrayAssign
    | returning | ifElse | whileLoop | block | exprStmt => cases hn
    | intLit value => exact .pure fun Γ _ => ⟨codeIn_nil, .inl rfl, List.forall_mem_nil _⟩
    | boolLit value => exact .pure fun Γ _ => ⟨codeIn_nil, Operand.in_bool value⟩
    | varRef name => exact sc.lowerName_gives name p
    | this =>
      have hinstance : sc.isStatic = false := by simpa [checkStructureAt] using hstructure
      exact .pure fun Γ _ => ⟨codeIn_nil, hinstance, List.forall_mem_nil _⟩
    | paren inner => exact ih inner List.mem_cons_self d
    | binary op left right =>
      obtain ⟨l, hl, hleft⟩ := htyped left List.mem_cons_self (sc.operandDemands op left right).1
      obtain ⟨r, hr, hright⟩ := htyped right mem_second
        (sc.operandDemands op left right).2
      obtain ⟨rfl, hlogical, hvalue, harray, hvoid⟩ := types_of_checkOperands hl hr htypes
      cases hop : op.isLogical with
      | true =>
        rw [hlogical hop] at hleft hright
        exact binary_gives_of_logical hop hleft hright
      | false =>
        refine binary_gives_of_not_logical hop (fun hop' => ?_) ?_ (IrType.ofTy_ne_void hvoid)
          hleft hright
        · rw [hvalue hop hop']
          rfl
        · rw [IrType.isArray_ofTy, harray]
    | unary op operand =>
      obtain ⟨t, ht, hoperand⟩ := htyped operand List.mem_cons_self .boolean
      simp only [checkTypesAt, ht, ite_eq_left_iff, reduceCtorEq, imp_false, not_not] at htypes
      obtain rfl := Ty.eq_boolean_of_isBoolean htypes
      cases op
      refine hoperand.bind fun v => (assignTemp_gives sc.context _ _).mono fun Γ a _ ha hv => ?_
      exact ha hv.1.1 ⟨⟨hv.1.2.1, hv.2⟩, hv.1.2.2⟩
    | newObject className =>
      refine (assignTemp_gives sc.context [] _).bind fun v => .pure fun Γ _ hv => ?_
      have hv := hv codeIn_nil ⟨trivial, List.forall_mem_nil _⟩
      refine ⟨codeIn_append.mpr ⟨hv.1, codeIn_cons.mpr ⟨?_, codeIn_nil⟩⟩, hv.2⟩
      exact Call.in_of_operands (List.forall_mem_singleton.mpr hv.2) (by rintro ⟨⟩)
        fun h => absurd rfl h
    | newArray element size =>
      refine (ih size List.mem_cons_self .int).bind fun v => ?_
      refine (assignTemp_gives sc.context _ _).mono fun Γ a _ ha hv => ?_
      exact ha hv.1 ⟨⟨hv.2.1, rfl⟩, hv.2.2⟩
    | arrayAccess array index =>
      simp only [checkTypesAt, List.append_eq_nil_iff] at htypes
      obtain ⟨t, ht, harray⟩ := htyped array List.mem_cons_self .intArray
      obtain ⟨u, hu, hindex⟩ := htyped index mem_second .int
      have hisArray := (IrType.isArray_ofTy t).trans (isArray_of_checkArray ht htypes.1)
      obtain rfl := eq_int_of_checkIndex hu htypes.2
      refine harray.bind fun v => (toVar_gives sc.context (.ofTy t) v).bind fun x => ?_
      refine hindex.bind fun j => (assignTemp_gives sc.context _ _).mono fun Γ a _ ha hj hx hv => ?_
      obtain ⟨hcode, hknown, hx⟩ := hx hv
      refine ha (codeIn_append.mpr ⟨hcode, hj.1.1⟩) ⟨⟨hj.1.2.1, ?_, hj.2⟩, ?_⟩
      · rw [hx, hisArray]
      · exact List.forall_mem_cons.mpr ⟨hknown, hj.1.2.2⟩
    | arrayLength array =>
      obtain ⟨t, ht, harray⟩ := htyped array List.mem_cons_self .intArray
      have hisArray := (IrType.isArray_ofTy t).trans (isArray_of_checkArray ht htypes)
      refine harray.bind fun v => (toVar_gives sc.context (.ofTy t) v).bind fun x => ?_
      refine (assignTemp_gives sc.context _ _).mono fun Γ a _ ha hx hv => ?_
      obtain ⟨hcode, hknown, hx⟩ := hx hv
      refine ha hcode ⟨?_, List.forall_mem_singleton.mpr hknown⟩
      exact (congrArg IrType.isArray hx).trans hisArray
    | arrayLit elements =>
      obtain ⟨ts, hts, hvalues⟩ :=
        lowerEach_gives (fun c hc d => htyped c hc d) (List.length_replicate ..)
      obtain ⟨harray, hfits⟩ := elements_fit hplaced hts htypes d i p
      refine (packArray_gives harray hvalues hfits).bind fun x => ?_
      exact .pure fun Γ _ hx => ⟨hx.2, Operand.in_var hx.1.1⟩
    | call receiver method arguments =>
      rw [lowerExpr_call]
      refine (call_gives hrows hnames (hwellFormed List.mem_cons_self) (fun c hc d =>
        htyped c hc d) _).bind ?_
      rintro ⟨c, code⟩
      by_cases hvoid : c.returnType = .void
      · simp only [hvoid, if_true]
        intro s a s' ha
        obtain ⟨_, _, hthrow, -⟩ := run_bind_eq_ok.mp ha
        exact absurd hthrow run_throw_ne_ok
      · simp only [hvoid, if_false]
        refine (assignTemp_gives sc.context _ _).mono fun Γ a _ ha hc => ?_
        exact ha hc.2 ⟨⟨hc.1.1, hvoid⟩, hc.1.2⟩

/-- The code for an expression computes a value of the type that the checks have found. -/
theorem lowerExpr_givesTyped (hplaced : sc.placed = none) (hclass : IsIdentifier sc.table.className)
    (hrows : sc.TakesRowsInArrays) (h : sc.Approves n) (hn : n.IsExpr) (d : Ty) :
    ∃ t, sc.typeOf? d n = some t ∧ GivesTyped sc.context sc.Knows (.ofTy t) (sc.lowerExpr d n) := by
  obtain ⟨t, ht, hlower⟩ := sc.hasLoweredType hplaced hclass h hn d
  exact ⟨t, ht, (sc.lowerExpr_gives hplaced hclass hrows h hn d).and_yields hlower⟩

/-! ## Assignments -/

/-- What is assigned to a method variable, also where its computation is made to end there. -/
theorem codeIn_retarget {ctx : Context} {Γ : Var → Prop} {dest : Var} {v : Value}
    (hdest : Γ dest) (hv : ValueIn ctx Γ v) (hfits : dest.type.Fits v.operand.type) :
    CodeIn ctx Γ ((retarget? dest v).getD (v.code ++ [.assign dest (.single v.operand)])) := by
  cases hretarget : retarget? dest v with
  | none => exact codeIn_append.mpr ⟨hv.1, codeIn_cons.mpr ⟨.assign hdest hv.2 hfits, codeIn_nil⟩⟩
  | some code =>
    obtain ⟨front, last, rhs, rfl, rfl⟩ := retarget?_eq_some hretarget
    obtain ⟨hfront, hlast⟩ := codeIn_append.mp hv.1
    have hlast := (codeIn_cons.mp hlast).1
    refine codeIn_append.mpr ⟨hfront, codeIn_cons.mpr ⟨.assign hdest ⟨hlast.1.1, ?_⟩ ?_, codeIn_nil⟩⟩
    · exact (List.forall_mem_cons.mp hlast.2).2
    · exact hfits.trans hlast.1.2

/-- A field that a name means is one of the class. -/
theorem mem_fields_of_lookup? {name : String} {t : Ty} (h : sc.lookup? name = some (.field t)) :
    ⟨name, .ofTy t⟩ ∈ sc.context.fields := by
  unfold lookup? at h
  split at h
  · cases h
  · simp only at h
    split at h
    · cases h
    · split at h
      · rename_i f hf
        cases h
        have hfield : sc.table.field? name = some f := by
          split at hf
          · cases hf
          · exact hf
        have hname : f.name = name := by simpa using List.find?_some hfield
        exact List.mem_map.mpr ⟨f, List.mem_of_find?_eq_some hfield, by rw [hname]⟩
      · simp at h

theorem lowerAssign_gives {x : Lower Value} {target : String} {t : Ty}
    (hx : GivesTyped sc.context sc.Knows (.ofTy t) x)
    (hfits : ∀ t', sc.variableType? target = some t' → (IrType.ofTy t').Fits (.ofTy t))
    (p : Position) : Gives sc.Knows (sc.lowerAssign target p x) (CodeIn sc.context) := by
  refine hx.bind fun v => ?_
  cases hb : sc.lookup? target with
  | none => exact .throw
  | some b =>
    have hfits := hfits b.type (by rw [variableType?, hb, Option.map_some])
    cases b with
    | imported path => exact .throw
    | param _ t' | «local» t' =>
      refine .pure fun Γ hK hv => codeIn_retarget (hK _ ⟨_, hb, rfl, rfl⟩) hv.1 ?_
      rw [hv.2]
      exact hfits
    | field t' =>
      refine .pure fun Γ _ hv => codeIn_append.mpr ⟨hv.1.1, codeIn_cons.mpr ⟨?_, codeIn_nil⟩⟩
      have hthis : sc.thisOperand.In sc.context Γ :=
        ⟨isStatic_of_lookup? hb, List.forall_mem_nil _⟩
      refine .putField hthis (mem_fields_of_lookup? hb) hv.1.2 ?_
      rw [hv.2]
      exact hfits

theorem lowerArrayName_gives (target : String) (p : Position) :
    Gives sc.Knows (sc.lowerArrayName target p) fun Γ a =>
      (∃ t, sc.variableType? target = some t ∧ a.1.type = .ofTy t) ∧ Γ a.1 ∧
        CodeIn sc.context Γ a.2 := by
  unfold lowerArrayName variableType?
  cases hb : sc.lookup? target with
  | none => exact .throw
  | some b =>
    cases b with
    | imported path => exact .throw
    | param _ t | «local» t =>
      exact .pure fun Γ hK => ⟨⟨t, rfl, rfl⟩, hK _ ⟨_, hb, rfl, rfl⟩, codeIn_nil⟩
    | field t =>
      refine (Gives.temp (.ofTy t)).bind fun dest => .pure fun Γ _ hdest => ?_
      refine ⟨⟨t, rfl, hdest.2⟩, hdest.1, codeIn_cons.mpr ⟨.assign hdest.1 ⟨?_, ?_⟩ (.inl hdest.2),
        codeIn_nil⟩⟩
      · exact isStatic_of_lookup? hb
      · exact List.forall_mem_nil _

/-- What the checks say of an assignment to an element of an array. -/
theorem types_of_arrayAssign {i : Nat} {p : Position} {target : String} {index value : Node}
    {a u t : Ty} (hcheck : sc.checkTypesAt ⟨i, p, .arrayAssign target index value⟩ = [])
    (ha : sc.variableType? target = some a) (hu : sc.typeOf? .int index = some u)
    (ht : sc.typeOf? (sc.elementDemand target) value = some t) :
    u = .int ∧ a.isArray = true ∧ (IrType.ofTy a.element).Fits (IrType.ofTy t) := by
  simp only [checkTypesAt, ha, ht, List.append_eq_nil_iff] at hcheck
  obtain ⟨hindex, hcheck⟩ := hcheck
  refine ⟨eq_int_of_checkIndex hu hindex, ?_⟩
  split at hcheck
  · cases hcheck
  · rename_i harray
    simp only [ite_eq_left_iff, reduceCtorEq, imp_false, not_not] at hcheck
    exact ⟨by simpa using harray, fits_of_assignable hcheck⟩

/-! ## Statements -/

theorem codeIn_closeWith {ctx : Context} {Γ : Var → Prop} {code : Code} {target : String}
    (hcode : CodeIn ctx Γ code) (htarget : IsLabel target) :
    CodeIn ctx Γ (closeWith code target) := by
  unfold closeWith
  split
  · exact hcode
  · exact codeIn_append.mpr ⟨hcode, codeIn_cons.mpr ⟨.goto htarget, codeIn_nil⟩⟩

theorem lowerDropped_gives (hplaced : sc.placed = none) (hclass : IsIdentifier sc.table.className)
    (hrows : sc.TakesRowsInArrays) (h : sc.Approves n) (hn : n.IsExpr) :
    Gives sc.Knows (sc.lowerDropped n) (CodeIn sc.context) := by
  induction n using Node.induction with
  | step n ih =>
    have htyped (c : Node) (hc : c ∈ n.children) (d : Ty) : ∃ t, sc.typeOf? d c = some t ∧
        GivesTyped sc.context sc.Knows (.ofTy t) (sc.lowerExpr d c) :=
      sc.lowerExpr_givesTyped hplaced hclass hrows (h.child hc)
        (h.wellFormed.isExpr_of_mem_children hn hc) d
    have hvalue : Gives sc.Knows (do return (← sc.lowerExpr .void n).code) (CodeIn sc.context) :=
      (sc.lowerExpr_gives hplaced hclass hrows h hn .void).bind fun v => .pure fun Γ _ hv => hv.1
    have hnames := h.namesHere
    have hwellFormed {c : Node} (hc : c ∈ n.children) : c.WellFormed := (h.child hc).wellFormed
    obtain ⟨i, p, k⟩ := n
    cases k with
    | paren inner =>
      have hinner := h.wellFormed.isExpr_of_mem_children hn List.mem_cons_self
      exact ih inner List.mem_cons_self (h.child List.mem_cons_self) hinner
    | call receiver method arguments =>
      rw [lowerDropped_call]
      refine (call_gives hrows hnames (hwellFormed List.mem_cons_self) (fun c hc d =>
        htyped c hc d) _).bind fun (c, code) => .pure fun Γ _ hc => ?_
      exact codeIn_append.mpr ⟨hc.2, codeIn_cons.mpr ⟨hc.1, codeIn_nil⟩⟩
    | _ => exact hvalue

theorem lowerStmts_gives {ns : List Node}
    (h : ∀ n ∈ ns, Gives sc.Knows (sc.lowerStmt n) (CodeIn sc.context)) :
    Gives sc.Knows (sc.lowerStmts ns) (CodeIn sc.context) := by
  induction ns with
  | nil => exact .pure fun Γ _ => codeIn_nil
  | cons n ns ih =>
    obtain ⟨hn, hns⟩ := List.forall_mem_cons.mp h
    exact hn.bind fun p => (ih hns).bind fun q => .pure fun Γ _ hq hp => codeIn_append.mpr ⟨hp, hq⟩

/-- **The code for a statement that passes all checks is well-typed.** -/
theorem lowerStmt_gives (hplaced : sc.placed = none) (hclass : IsIdentifier sc.table.className)
    (hrows : sc.TakesRowsInArrays) (h : sc.Approves n) (hn : n.IsStmt) :
    Gives sc.Knows (sc.lowerStmt n) (CodeIn sc.context) := by
  induction n using Node.induction with
  | step n ih =>
    have hexpr {c : Node} (hc : c ∈ n.children) (hc' : c.IsExpr) (d : Ty) :
        GivesValue sc.context sc.Knows (sc.lowerExpr d c) :=
      sc.lowerExpr_gives hplaced hclass hrows (h.child hc) hc' d
    have htyped {c : Node} (hc : c ∈ n.children) (hc' : c.IsExpr) (d : Ty) :
        ∃ t, sc.typeOf? d c = some t ∧
          GivesTyped sc.context sc.Knows (.ofTy t) (sc.lowerExpr d c) :=
      sc.lowerExpr_givesTyped hplaced hclass hrows (h.child hc) hc' d
    have hcondition {construct : Construct} {c : Node} (hc : c ∈ n.children) (hc' : c.IsExpr)
        (hcheck : sc.checkCondition construct c = []) :
        GivesTruth sc.context sc.Knows (sc.lowerExpr .boolean c) := by
      obtain ⟨t, ht, hlower⟩ := htyped hc hc' .boolean
      simp only [checkCondition, ht, ite_eq_left_iff, reduceCtorEq, imp_false, not_not] at hcheck
      rw [Ty.eq_boolean_of_isBoolean hcheck] at hlower
      exact hlower
    have ih (c : Node) (hc : c ∈ n.children) (hc' : c.IsStmt) :=
      ih c hc (h.child hc) hc'
    have htypes := h.typesHere
    have hfits := h.wellFormed.fits
    obtain ⟨i, p, k⟩ := n
    cases k with
    | assign target value =>
      obtain ⟨t, ht, hvalue⟩ := htyped List.mem_cons_self (hfits value List.mem_cons_self)
        (sc.targetDemand target)
      refine lowerAssign_gives hvalue (fun t' ht' => ?_) p
      simp only [checkTypesAt, ht', ht, ite_eq_left_iff, reduceCtorEq, imp_false, not_not] at htypes
      exact fits_of_assignable htypes
    | arrayAssign target index value =>
      have hvalue : value ∈ [index, value] := mem_second
      obtain ⟨u, hu, hindex⟩ := htyped List.mem_cons_self (hfits index List.mem_cons_self) .int
      obtain ⟨t, ht, hstored⟩ := htyped hvalue (hfits value hvalue) (sc.elementDemand target)
      refine (lowerArrayName_gives target p).bind fun array => ?_
      refine hindex.bind fun j => hstored.bind fun v => .pure fun Γ _ hv hj hx => ?_
      obtain ⟨⟨a, ha, hx⟩, hknown, hcode⟩ := hx
      obtain ⟨hint, harray, hfit⟩ := types_of_arrayAssign htypes ha hu ht
      subst hint
      simp only [codeIn_append, codeIn_cons, codeIn_nil, and_true]
      refine ⟨⟨⟨hcode, hj.1.1⟩, hv.1.1⟩, .arrayStore ⟨hknown, ?_⟩ ⟨hj.1.2, hj.2⟩ hv.1.2 ?_⟩
      · rw [hx, IrType.isArray_ofTy, harray]
      · rwa [hx, IrType.ofTy_element harray, hv.2]
    | returning value =>
      cases value with
      | none =>
        exact .pure fun Γ _ => codeIn_cons.mpr ⟨⟨trivial, List.forall_mem_nil _⟩, codeIn_nil⟩
      | some value =>
        refine (hexpr List.mem_cons_self (hfits value List.mem_cons_self) _).bind fun v => ?_
        exact .pure fun Γ _ hv => codeIn_append.mpr ⟨hv.1, codeIn_cons.mpr ⟨hv.2, codeIn_nil⟩⟩
    | ifElse c thenBranch elseBranch =>
      obtain ⟨hc, hthen, helse⟩ := hfits
      have hcond := hcondition List.mem_cons_self hc htypes
      have hthen := ih thenBranch mem_second hthen
      cases elseBranch with
      | none =>
        refine (Gives.label .ifElse).bind fun k => hcond.bind fun v => hthen.bind fun thenCode => ?_
        refine .pure fun Γ _ ht hv _ => ?_
        have hthenLabel := LabelKind.isLabel (k := .ifElse) List.mem_cons_self k
        have hendLabel := LabelKind.isLabel (k := .ifElse) mem_second k
        simp only [codeIn_append, codeIn_cons, codeIn_nil, and_true, and_assoc]
        exact ⟨hv.1.1, .branch ⟨hv.1.2, hv.2⟩ hthenLabel, .goto hendLabel, .label hthenLabel, ht,
          .label hendLabel⟩
      | some elseBranch =>
        have helse := ih elseBranch mem_third
          (helse elseBranch rfl)
        refine (Gives.label .ifElse).bind fun k => hcond.bind fun v => helse.bind fun elseCode => ?_
        refine hthen.bind fun thenCode => .pure fun Γ _ ht he hv _ => ?_
        have hthenLabel := LabelKind.isLabel (k := .ifElse) List.mem_cons_self k
        have hendLabel := LabelKind.isLabel (k := .ifElse) mem_second k
        have hbranch := codeIn_closeWith
          (codeIn_cons.mpr ⟨.branch ⟨hv.1.2, hv.2⟩ hthenLabel, he⟩) hendLabel
        simp only [codeIn_append, codeIn_cons, codeIn_nil, and_true, and_assoc]
        exact ⟨hv.1.1, hbranch, .label hthenLabel, ht, .label hendLabel⟩
    | whileLoop c body =>
      obtain ⟨hc, hbody⟩ := hfits
      have hcond := hcondition List.mem_cons_self hc htypes
      have hbody := ih body mem_second hbody
      refine (Gives.label .whileLoop).bind fun k => hcond.bind fun v => hbody.bind fun bodyCode => ?_
      refine .pure fun Γ _ hb hv _ => ?_
      have hlabel {stem : String} (hstem : stem ∈ LabelKind.stems .whileLoop) :=
        LabelKind.isLabel hstem k
      have hcondLabel := hlabel List.mem_cons_self
      have hbodyLabel := hlabel mem_second
      have hendLabel := hlabel mem_third
      simp only [codeIn_append, codeIn_cons, codeIn_nil, and_true, and_assoc]
      exact ⟨.label hcondLabel, hv.1.1, .branch ⟨hv.1.2, hv.2⟩ hbodyLabel, .goto hendLabel,
        .label hbodyLabel, hb, .goto hcondLabel, .label hendLabel⟩
    | block statements => exact lowerStmts_gives fun c hc => ih c hc (hfits c hc)
    | exprStmt e =>
      exact sc.lowerDropped_gives hplaced hclass hrows (h.child List.mem_cons_self)
        (hfits e List.mem_cons_self)
    | _ => exact .throw

/-! ## Methods -/

/-- A parameter is found by its name unless an import has the name. -/
theorem type_eq_of_lookup? {ds : List Variable} (hds : sc.table.params? sc.method = some ds)
    (hnodup : (ds.map Variable.name).Nodup) {d : Variable} (hd : d ∈ ds) {b : Binding}
    (hb : sc.lookup? d.name = some b) (hvar : b.isMethodVariable = true) : b.type = d.type := by
  unfold lookup? at hb
  split at hb
  · cases hb
    cases hvar
  · simp only [hds, Option.getD_some] at hb
    split at hb
    · rename_i q i hq
      cases hb
      have hname := List.find?_some hq
      rw [beq_iff_eq] at hname
      have hmem := List.fst_mem_of_mem_zipIdx (List.mem_of_find?_eq_some hq)
      exact congrArg Variable.type (List.inj_on_of_nodup_map hnodup hmem hd hname)
    · rename_i hnone
      rw [← List.zipIdx_map_fst 0 ds] at hd
      obtain ⟨q, hq, rfl⟩ := List.mem_map.mp hd
      exact absurd (beq_self_eq_true q.1.name) (List.find?_eq_none.mp hnone q hq)

end Scope

/-- The names of the parameters of a method are reserved. -/
theorem mem_reserved_of_param {table : SymbolTable} {head : MethodHead} {ds : List Variable}
    (hds : table.params? head.name = some ds) {d : Variable} (hd : d ∈ ds) :
    d.name ∈ (Supply.ofTable table).reserved := by
  have hmethod := SymbolTable.hasMethod_iff.mp (SymbolTable.hasMethod_of_params? hds)
  refine List.mem_map.mpr
    ⟨d, List.mem_append_right _ (List.mem_flatMap.mpr ⟨head.name, hmethod, ?_⟩), rfl⟩
  rw [hds]
  exact List.mem_append_left _ hd

/-- Known variables, parameters and temporary variables of one name have one type. -/
theorem Scope.exists_types {sc : Scope} {s s' : Supply} {ds : List Variable} {temps : List Var}
    (hds : sc.table.params? sc.method = some ds) (hnodup : (ds.map Variable.name).Nodup)
    (hreserves : sc.Reserves s.reserved) (hparams : ∀ d ∈ ds, d.name ∈ s.reserved)
    (htemps : s.Declares s' temps) : ∃ types : String → IrType,
      (∀ d ∈ ds, .ofTy d.type = types d.name) ∧ (∀ v, sc.Knows v → v.type = types v.name) ∧
        ∀ v ∈ temps, v.type = types v.name := by
  let types (x : String) : IrType :=
    match temps.find? (·.name == x), ds.find? (·.name == x) with
    | some v, _ => v.type
    | none, some d => .ofTy d.type
    | none, none => ((sc.variableType? x).map IrType.ofTy).getD .void
  -- No temporary variable has a reserved name.
  have hfind {x : String} (hx : x ∈ s.reserved) : temps.find? (·.name == x) = none := by
    refine List.find?_eq_none.mpr fun v hv hname => ?_
    rw [beq_iff_eq] at hname
    exact (htemps.fresh v hv).1.1 (hname ▸ hx)
  refine ⟨types, fun d hd => ?_, fun v hv => ?_, fun v hv => ?_⟩
  · simp only [types, hfind (hparams d hd), find?_eq_of_nodup hnodup hd]
  · obtain ⟨b, hb, hvar, htype⟩ := hv
    have hnone := hfind (hreserves v.name b hb hvar)
    cases hparam : ds.find? (·.name == v.name) with
    | none =>
      simp only [types, hnone, hparam, variableType?, hb, htype, Option.map_some, Option.getD_some]
    | some d =>
      have hname := List.find?_some hparam
      rw [beq_iff_eq] at hname
      rw [← hname] at hb
      have hd := sc.type_eq_of_lookup? hds hnodup (List.mem_of_find?_eq_some hparam) hb hvar
      simp only [types, hnone, hparam, htype, hd]
  · simp only [types, find?_eq_of_nodup htemps.nodup hv]

/-! ## The class -/

section Class

variable {source : String} {root : Node} {table : SymbolTable} {unit : ClassUnit} {m : Method}

/-- The class has what the symbol table says, and some methods. -/
theorem exists_eq_of_lower (h : lower table root = .ok unit) : ∃ methods, unit =
    { imports := table.imports
      name := table.className
      superclass := table.superclass
      fields := table.fields.map fun f => ⟨f.name, .ofTy f.type⟩
      methods } := by
  unfold lower lowerWith at h
  cases hrun : (root.methods.mapM (lowerMethod (Scope.ofMethod table))).run' (.ofTable table) with
  | error e => rw [hrun] at h; cases h
  | ok methods =>
    rw [hrun] at h
    cases h
    exact ⟨methods, rfl⟩

theorem unit_eq_of_lower (h : lower table root = .ok unit) : unit.name = table.className ∧
    unit.fields = table.fields.map fun f => ⟨f.name, .ofTy f.type⟩ := by
  obtain ⟨methods, rfl⟩ := exists_eq_of_lower h
  exact ⟨rfl, rfl⟩

/-- The parameters of a method, by the nodes that declare the methods and by their code. -/
theorem find?_signatureOf?_eq {ns : List Node} {ms : List Method}
    (h : List.Forall₂ (fun n m => ∃ sig, SymbolTable.signatureOf? n = some sig ∧
      sig.name = m.name ∧ sig.params.map (fun p => IrType.ofTy p.type) = m.params.map Var.type) ns ms)
    (name : String) :
    ((ns.filterMap SymbolTable.signatureOf?).find? (·.name == name)).map
        (fun sig => sig.params.map fun p => IrType.ofTy p.type) =
      (ms.find? (·.name == name)).map fun m => m.params.map Var.type := by
  induction h with
  | nil => rfl
  | cons hsig _ ih =>
    obtain ⟨sig, hsig, hname, hparams⟩ := hsig
    rw [List.filterMap_cons_some hsig, List.find?_cons, List.find?_cons, hname]
    split
    · simp only [Option.map_some, hparams]
    · exact ih

/-- The symbol table finds the methods of the class by the same names. -/
theorem params?_eq_of_lower (h : Accepted source root table) (hlower : lower table root = .ok unit)
    (name : String) : (table.params? name).map (fun ps => ps.map fun p => IrType.ofTy p.type) =
      (unit.methods.find? (·.name == name)).map fun m => m.params.map Var.type := by
  obtain ⟨_, -, _, -, hsignatures⟩ := h.exists_class
  rw [SymbolTable.params?_eq, SymbolTable.signature?, hsignatures, Option.map_map]
  refine find?_signatureOf?_eq ((forall₂_lowerMethod hlower).imp ?_) name
  rintro n m ⟨s, s', _, hrun⟩
  obtain ⟨head, params, locals, body, code, hkind, -, hname, -, hparams, -⟩ :=
    lowerMethod_eq_ok hrun
  rw [SymbolTable.signatureOf?, hkind, hname, hparams, List.map_map]
  exact ⟨_, rfl, rfl, rfl⟩

/-- What a method may refer to is the same by the tree and by the class. -/
theorem context_eq_of_lower (h : Accepted source root table) (hlower : lower table root = .ok unit)
    {head : MethodHead} (hstatic : m.isStatic = head.isStatic) :
    (Scope.ofMethod table head).context = unit.context m := by
  obtain ⟨hname, hfields⟩ := unit_eq_of_lower hlower
  unfold Scope.context ClassUnit.context
  simp only [Scope.ofMethod, hname, hfields, hstatic, Context.mk.injEq, true_and]
  exact funext (params?_eq_of_lower h hlower)

end Class

/-! ### The variables of a method -/

section Method

variable {source : String} {root n : Node} {table : SymbolTable} {unit : ClassUnit} {m : Method}
  {head : MethodHead} {params locals body : List Node} {s s' : Supply}

/-- The symbol table has the parameters that a method declares, under different names. -/
theorem Accepted.params?_eq (h : Accepted source root table) (hn : n ∈ root.methods)
    (hkind : n.kind = .methodDecl head params locals body) :
    table.params? head.name = some (params.filterMap SymbolTable.declared?) ∧
      ((params.filterMap SymbolTable.declared?).map Variable.name).Nodup := by
  refine ⟨?_, nodup_map_filterMap (fun _ _ => SymbolTable.declaredName?_of_declared?)
    (h.nodup_params hn hkind)⟩
  rw [SymbolTable.params?_eq, h.signature?_eq hn hkind, SymbolTable.signatureOf?, hkind]
  rfl

/-- The code of a method that passes all checks is well-typed and works on variables of the method and
new temporary ones. -/
theorem codeIn_of_approves (hclass : IsIdentifier table.className)
    (hrows : (Scope.ofMethod table head).TakesRowsInArrays)
    (hkind : n.kind = .methodDecl head params locals body)
    (happroves : (Scope.ofMethod table head).Approves n)
    (hm : (lowerMethod (Scope.ofMethod table) n).run s = .ok (m, s')) :
    ∃ temps, s.Declares s' temps ∧ CodeIn (Scope.ofMethod table head).context
      (fun v => (Scope.ofMethod table head).Knows v ∨ v ∈ temps) m.code := by
  obtain ⟨head', params', locals', body', code, hkind', hcode, -, -, -, hbody⟩ :=
    lowerMethod_eq_ok hm
  cases hkind.symm.trans hkind'
  obtain ⟨temps, htemps, hin⟩ := Scope.lowerStmts_gives (fun c hc =>
    Scope.lowerStmt_gives rfl hclass hrows (happroves.statement hkind hc).1
      (happroves.statement hkind hc).2.1) s code s' hcode
  refine ⟨temps, htemps, ?_⟩
  have hin := hin (fun v => (Scope.ofMethod table head).Knows v ∨ v ∈ temps) (fun _ => .inl)
    (fun _ => .inr)
  rcases hbody with ⟨hm, -⟩ | ⟨hm, -⟩ <;> rw [hm]
  · exact codeIn_append.mpr ⟨hin, codeIn_cons.mpr ⟨⟨trivial, List.forall_mem_nil _⟩, codeIn_nil⟩⟩
  · exact hin

theorem codeIn_of_lowerMethod (h : Accepted source root table) (hn : n ∈ root.methods)
    (hlower : lower table root = .ok unit)
    (hm : (lowerMethod (Scope.ofMethod table) n).run s = .ok (m, s'))
    (hkind : n.kind = .methodDecl head params locals body) : ∃ temps, s.Declares s' temps ∧
      CodeIn (unit.context m) (fun v => (Scope.ofMethod table head).Knows v ∨ v ∈ temps) m.code := by
  obtain ⟨_, _, _, _, _, hkind', -, -, hstatic, -⟩ := lowerMethod_eq_ok hm
  cases hkind.symm.trans hkind'
  rw [← context_eq_of_lower h hlower hstatic]
  exact codeIn_of_approves h.isIdentifier_className (fun _ => h.isArray_of_isVarargs) hkind
    (h.approves_of_mem_preorder (Node.mem_preorder_of_mem_methods hn).1 hkind) hm

/-- The variables of a method are its parameters, those that it knows, and new temporary ones. -/
theorem mem_vars_of_codeIn {Γ : Var → Prop} (hcode : CodeIn (unit.context m) Γ m.code) {v : Var}
    (hv : v ∈ m.vars) : v ∈ m.params ∨ Γ v := by
  refine (List.mem_append.mp hv).imp_right fun hv => ?_
  obtain ⟨i, hi, hv⟩ := List.mem_flatMap.mp hv
  exact (hcode i hi).2 v hv

theorem lowerMethod_wellTyped (h : Accepted source root table) (hn : n ∈ root.methods)
    (hs : s.reserved = (Supply.ofTable table).reserved) (hlower : lower table root = .ok unit)
    (hm : (lowerMethod (Scope.ofMethod table) n).run s = .ok (m, s')) : m.WellTyped unit := by
  obtain ⟨head, params, locals, body, code, hkind, -, -, -, hparams, -⟩ := lowerMethod_eq_ok hm
  obtain ⟨temps, htemps, hcode⟩ := codeIn_of_lowerMethod h hn hlower hm hkind
  obtain ⟨hds, hnodup⟩ := h.params?_eq hn hkind
  have hreserves : (Scope.ofMethod table head).Reserves s.reserved :=
    hs ▸ reserves_ofTable table head
  obtain ⟨types, hparamTypes, hknown, htempTypes⟩ := Scope.exists_types hds hnodup hreserves
    (fun d hd => hs ▸ mem_reserved_of_param hds hd) htemps
  refine ⟨fun i hi => (hcode i hi).1, ⟨types, fun v hv => ?_⟩, nodup_labels_of_lowerMethod hs hm⟩
  rcases mem_vars_of_codeIn hcode hv with hv | hv
  · rw [hparams] at hv
    obtain ⟨d, hd, rfl⟩ := List.mem_map.mp hv
    exact hparamTypes d hd
  · exact hv.elim (hknown v) (htempTypes v)

/-- A variable of the code that has the name of a variable of the method has its type. -/
theorem type_eq_of_mem_vars (h : Accepted source root table) (hn : n ∈ root.methods)
    (hs : s.reserved = (Supply.ofTable table).reserved) (hlower : lower table root = .ok unit)
    (hm : (lowerMethod (Scope.ofMethod table) n).run s = .ok (m, s'))
    (hkind : n.kind = .methodDecl head params locals body) {v : Var} (hv : v ∈ m.vars) {b : Binding}
    (hb : (Scope.ofMethod table head).lookup? v.name = some b) (hvar : b.isMethodVariable = true) :
    v.type = .ofTy b.type := by
  obtain ⟨head', params', locals', body', code, hkind', -, -, -, hparams, -⟩ := lowerMethod_eq_ok hm
  cases hkind.symm.trans hkind'
  obtain ⟨temps, htemps, hcode⟩ := codeIn_of_lowerMethod h hn hlower hm hkind
  obtain ⟨hds, hnodup⟩ := h.params?_eq hn hkind
  rcases mem_vars_of_codeIn hcode hv with hv | ⟨b', hb', -, htype⟩ | hv
  · rw [hparams] at hv
    obtain ⟨d, hd, rfl⟩ := List.mem_map.mp hv
    rw [(Scope.ofMethod table head).type_eq_of_lookup? hds hnodup hd hb hvar]
  · cases hb.symm.trans hb'
    exact htype
  -- No new temporary variable has the name of a variable of the method.
  · exact absurd (hs ▸ reserves_ofTable table head _ b hb hvar) (htemps.fresh v hv).1.1

end Method

/-- The three-address code of each method is well-typed. -/
theorem method_wellTyped_of_lower {source : String} {root : Node} {table : SymbolTable}
    (h : Accepted source root table) {unit : ClassUnit} (hlower : lower table root = .ok unit)
    {m : Method} (hm : m ∈ unit.methods) : m.WellTyped unit := by
  obtain ⟨n, hn, s, s', hs, hrun⟩ := exists_of_forall₂ (forall₂_lowerMethod hlower) hm
  exact lowerMethod_wellTyped h hn hs hlower hrun

/-- **The methods of an accepted program have well-typed three-address code**, in which the variables
of the program have the types that they are declared with. -/
theorem wellTyped_of_lower {source : String} {root : Node} {table : SymbolTable}
    (h : Accepted source root table) {unit : ClassUnit} (hlower : lower table root = .ok unit) :
    List.Forall₂ (fun n m => m.WellTyped unit ∧ ∃ head params locals body,
      n.kind = .methodDecl head params locals body ∧ ∀ v ∈ m.vars, ∀ b,
        (Scope.ofMethod table head).lookup? v.name = some b → b.isMethodVariable = true →
          v.type = .ofTy b.type) root.methods unit.methods := by
  have hmethods := (List.forall₂_and_left _ _).mpr ⟨fun n hn => hn, forall₂_lowerMethod hlower⟩
  refine hmethods.imp fun n m ⟨hn, s, s', hs, hrun⟩ => ?_
  obtain ⟨head, params, locals, body, code, hkind, -⟩ := lowerMethod_eq_ok hrun
  refine ⟨lowerMethod_wellTyped h hn hs hlower hrun, head, params, locals, body, hkind, ?_⟩
  exact fun v hv b hb hvar => type_eq_of_mem_vars h hn hs hlower hrun hkind hv hb hvar

/-- The code of calls with packed arguments, of arrays and of a field. -/
theorem wellTyped_of_lower_row : ∃ root table unit,
    Accepted "class A{int n;int f(int a,int... b){n=[1,2][0]+b.length;return this.f(a,n,b[a]);}}"
      root table ∧ lower table root = .ok unit ∧
      List.Forall₂ (fun n m => m.WellTyped unit ∧ ∃ head params locals body,
        n.kind = .methodDecl head params locals body ∧ ∀ v ∈ m.vars, ∀ b,
          (Scope.ofMethod table head).lookup? v.name = some b → b.isMethodVariable = true →
            v.type = .ofTy b.type) root.methods unit.methods := by
  obtain ⟨root, table, h, hp⟩ := Accepted.exists_of_any
    "class A{int n;int f(int a,int... b){n=[1,2][0]+b.length;return this.f(a,n,b[a]);}}"
    (fun root table => (lower table root).isOk) (by decide +kernel)
  cases hlower : lower table root with
  | error e => simp [hlower, Except.isOk, Except.toBool] at hp
  | ok unit => exact ⟨root, table, unit, h, hlower, wellTyped_of_lower h hlower⟩

end MiniJava
