import MiniJava.Proofs.Compiled
import MiniJava.Proofs.Lowering.Actions
import MiniJava.Proofs.Lowering.Lighter

/-!
# The code of simplified trees

A tree that is simplified has lighter code: where it was lowered it still is, with no more variables
and no deeper stack. For a literal there is no code at all, and everywhere else the code has the
same shape (`Scope.lowerExpr_lightens`, `Scope.lowerStmt_lightens`). Where an operand has to be a
variable it is an array, and no literal is an array.
-/

namespace MiniJava

open Ir

/-! ## What stays the same -/

/-- What becomes a literal is no name of an import. -/
theorem Node.Simplified.staticReceiver?_eq {t : SymbolTable} {sc : Scope} {n n' : Node}
    (h : Simplified t (some sc) n n') (hn : n.WellFormed) :
    sc.staticReceiver? n' = sc.staticReceiver? n := by
  generalize haround : some sc = around at h
  cases h with
  | literal c hexpr hcalls htype =>
    have hleaf : sc.staticReceiver? (n.become c) = none := by cases c <;> rfl
    cases hname : sc.staticReceiver? n with
    | none => exact hleaf
    | some name =>
      have hclass := Scope.ofTy_of_staticReceiver? hn (htype sc haround.symm .object) hname
      cases c <;> cases hclass
  | @keep _ i p k below => cases k <;> rfl

namespace Scope

variable {sc : Scope}

/-! ## Names and calls -/

open Lower

variable {r : List String}

theorem lowerName_lightens (hr : sc.Reserves r) (name : String) (p : Position) :
    LightensValue r (sc.lowerName name p) (sc.lowerName name p) := by
  have hvariable {b : Binding} (hb : sc.lookup? name = some b) (hvar : b.isMethodVariable = true) :
      LightensValue r (pure ⟨.var ⟨name, .ofTy b.type⟩, []⟩)
        (pure ⟨.var ⟨name, .ofTy b.type⟩, []⟩) :=
    .pure fun Γ hΓ => .of_operand (.var (hΓ name (hr name b hb hvar)) rfl)
  unfold lowerName
  split
  · exact .pure fun Γ _ => .of_operand (.same rfl)
  · exact hvariable ‹_› rfl
  · exact hvariable ‹_› rfl
  · exact .mono (assignTemp_lightens rfl) fun Γ v v' hv => hv .nil (.same rfl)
  · exact .throw

theorem lowerArguments_lightens {receiver receiver' : Node} {method : String}
    {arguments : List (Node × Node)} {values values' : List (Lower Value)}
    (hpacking : sc.packing? receiver' method (arguments.map Prod.snd) =
      sc.packing? receiver method (arguments.map Prod.fst))
    (h : List.Forall₂ (LightensValue r) values values') :
    Lightens r (sc.lowerArguments receiver method (arguments.map Prod.fst) values)
      (sc.lowerArguments receiver' method (arguments.map Prod.snd) values') fun Γ a a' =>
        List.Forall₂ (Operand.Lighter Γ) a.1 a'.1 ∧ CodeLighter Γ a.2 a'.2 := by
  rw [lowerArguments_eq, lowerArguments_eq, hpacking]
  split
  · rename_i k t _
    refine (inOrder_lightens (List.forall₂_take k h)).bind fun (os, p) (os', p') _ => ?_
    refine (packArray_lightens t (List.forall₂_drop k h)).bind fun (x, q) (x', q') _ =>
      .pure fun Γ _ hpacked hos => ?_
    exact ⟨List.rel_append hos.1 (.cons hpacked.operand .nil), hos.2.append hpacked.code⟩
  · exact inOrder_lightens h

theorem lowerEach_lightens {cs : List (Node × Node)}
    (h : ∀ c ∈ cs, ∀ d, LightensValue r (sc.lowerExpr d c.1) (sc.lowerExpr d c.2)) (ds : List Ty) :
    List.Forall₂ (LightensValue r) (sc.lowerEach ds (cs.map Prod.fst))
      (sc.lowerEach ds (cs.map Prod.snd)) := by
  induction cs generalizing ds with
  | nil => exact .nil
  | cons c cs ih =>
    obtain ⟨hc, hcs⟩ := List.forall_mem_cons.mp h
    exact .cons (hc _) (ih hcs ds.tail)

/-- A call whose receiver and arguments are simplified. -/
theorem lowerCall_lightens {t : SymbolTable} (u : IrType) {receiver receiver' : Node}
    (method : String) {arguments : List (Node × Node)} (hreceiver : receiver.WellFormed)
    (h : ∀ x ∈ (receiver, receiver') :: arguments, Node.Simplified t (some sc) x.1 x.2)
    (hlowered : ∀ x ∈ (receiver, receiver') :: arguments,
      ∀ d, LightensValue r (sc.lowerExpr d x.1) (sc.lowerExpr d x.2)) :
    Lightens r
      (sc.lowerCall u receiver method (arguments.map Prod.fst) (sc.lowerExpr .object receiver)
        (sc.lowerEach (sc.argumentDemands receiver method (arguments.map Prod.fst))
          (arguments.map Prod.fst)))
      (sc.lowerCall u receiver' method (arguments.map Prod.snd) (sc.lowerExpr .object receiver')
        (sc.lowerEach (sc.argumentDemands receiver' method (arguments.map Prod.snd))
          (arguments.map Prod.snd)))
      fun Γ a a' => a.1.Lighter Γ a'.1 ∧ CodeLighter Γ a.2 a'.2 := by
  have hsimplified : Node.Simplified t (some sc) receiver receiver' := h _ List.mem_cons_self
  have htarget : LightensValue r (sc.lowerExpr .object receiver) (sc.lowerExpr .object receiver') :=
    hlowered _ List.mem_cons_self .object
  have halike := hsimplified.alike
  have harguments := lowerArguments_lightens
    (halike.packing?_eq (fun x hx => (h x (List.mem_cons_of_mem _ hx)).alike) method)
    (lowerEach_lightens (fun x hx => hlowered x (List.mem_cons_of_mem _ hx))
      (sc.argumentDemands receiver method (arguments.map Prod.fst)))
  rw [halike.argumentDemands]
  unfold lowerCall
  rw [hsimplified.staticReceiver?_eq hreceiver]
  split
  · simp only [pure_bind]
    refine harguments.bind fun (os, p) (os', p') _ => .pure fun Γ _ hos => ?_
    exact ⟨⟨rfl, .same rfl, hos.1, rfl⟩, hos.2⟩
  · simp only [pure_bind]
    refine htarget.bind fun v v' _ => harguments.bind fun (os, p) (os', p') _ =>
      .pure fun Γ _ hos hv => ?_
    exact ⟨⟨rfl, hv.operand, hos.1, rfl⟩, hv.code.append hos.2⟩

end Scope

/-! ## Expressions -/

namespace Scope

open Lower

variable {sc : Scope} {t : SymbolTable} {r : List String} {n n' : Node}

/-- A literal has no code, and its type is that of what it takes the place of. -/
theorem lowerExpr_become_lightens (hplaced : sc.placed = none)
    (hclass : IsIdentifier sc.table.className) (hr : sc.Reserves r) (happroves : sc.Approves n)
    (hn : n.IsExpr) {c : Constant} (htype : ∀ d, sc.typeOf? d n = some c.type) (d : Ty) :
    LightensValue r (sc.lowerExpr d n) (sc.lowerExpr d (n.become c)) := by
  obtain ⟨ty, hty, hyields⟩ := hasLoweredType hplaced hclass happroves hn d
  cases hty.symm.trans (htype d)
  have hlower : ∃ (value : Int32) (u : IrType), (u = .int32 ∨ u = .boolean) ∧
      IrType.ofTy c.type = u ∧ sc.lowerExpr d (n.become c) = pure ⟨.literal value u, []⟩ := by
    cases c with
    | int value => exact ⟨value, .int32, .inl rfl, rfl, rfl⟩
    | bool value => exact ⟨if value then 1 else 0, .boolean, .inr rfl, rfl, rfl⟩
  obtain ⟨value, u, hu, hc, hlower⟩ := hlower
  rw [hlower]
  refine .pure_right fun s v s₁ hs hv => ⟨(sc.lowerExpr_makes hr n d s v s₁ hs hv).precedes, ?_⟩
  exact fun Γ _ => .literal value hu ((hyields.of_run hv).trans hc)

/-- **An expression that is simplified has lighter code.** -/
theorem lowerExpr_lightens (hplaced : sc.placed = none) (hclass : IsIdentifier sc.table.className)
    (hr : sc.Reserves r) (h : Node.Simplified t (some sc) n n') (happroves : sc.Approves n)
    (hn : n.IsExpr) (d : Ty) : LightensValue r (sc.lowerExpr d n) (sc.lowerExpr d n') := by
  refine Node.Simplified.within
    (motive := fun n n' => sc.Approves n → n.IsExpr → ∀ d,
      LightensValue r (sc.lowerExpr d n) (sc.lowerExpr d n'))
    (fun n c _ _ htype happroves hn d => ?_) (fun i p k hwhole below happroves hn d => ?_) h
    (fun m hm => (happroves.wellFormed.isExpr_of_mem_preorder hn hm).not_method) happroves hn d
  · exact lowerExpr_become_lightens hplaced hclass hr happroves hn htype d
  · have hexpr {x : Node × Node} (hx : x ∈ k.children) : x.1.IsExpr :=
      happroves.wellFormed.isExpr_of_mem_children hn (below x hx).1
    have hlowered {x : Node × Node} (hx : x ∈ k.children) (d : Ty) :
        LightensValue r (sc.lowerExpr d x.1) (sc.lowerExpr d x.2) :=
      (below x hx).2.2 (happroves.child (below x hx).1) (hexpr hx) d
    have htypes := happroves.typesHere
    -- What is indexed or measured has a value of an array type, so it is no literal.
    have harray {x : Node × Node} (hx : x ∈ k.children) (hcheck : sc.checkArray x.1 = []) :
        Lightens r (sc.lowerExpr .intArray x.1) (sc.lowerExpr .intArray x.2) fun Γ v v' =>
          v.Lighter Γ v' ∧ v.operand.type.isArray = true := by
      obtain ⟨ty, hty, hyields⟩ := hasLoweredType hplaced hclass
        (happroves.child (below x hx).1) (hexpr hx) .intArray
      refine (hlowered hx .intArray).and_yields (hyields.mono fun v hv => ?_)
      rw [hv, IrType.isArray_ofTy]
      exact isArray_of_checkArray hty hcheck
    cases k with
    | program | importDecl | classDecl | varDecl | methodDecl | param | assign | arrayAssign
    | returning | ifElse | whileLoop | block | exprStmt => cases hn
    | intLit value => exact .pure fun Γ _ => .of_operand (.same rfl)
    | boolLit value => exact .pure fun Γ _ => .of_operand (.same rfl)
    | this => exact .pure fun Γ _ => .of_operand (.same rfl)
    | varRef name => exact lowerName_lightens hr name p
    | paren inner => exact hlowered List.mem_cons_self d
    | binary op left right =>
      have hleft : left ∈ Kind.children (.binary op left right) := List.mem_cons_self
      have hright : right ∈ Kind.children (.binary op left right) := mem_second
      have hl := (below left hleft).2.1.alike
      have hr := (below right hright).2.1.alike
      simp only [Kind.map, lowerExpr]
      rw [hl.operandDemands hr]
      exact binary_lightens op (hlowered hleft _) (hlowered hright _)
    | unary op operand =>
      cases op
      refine (hlowered (x := operand) List.mem_cons_self .boolean).bind fun v v' _ => ?_
      exact .mono (assignTemp_lightens rfl) fun Γ a a' ha hv => ha hv.code (.not hv.operand)
    | newObject className =>
      refine Lightens.bind (assignTemp_lightens rfl) fun v v' _ => .pure fun Γ _ hv => ?_
      have hv := hv (.nil (p := [])) (.same rfl)
      have hconstruct : (Call.construct v.operand).Lighter Γ (.construct v'.operand) :=
        ⟨rfl, hv.operand, .nil, rfl⟩
      refine .other (hv.code.append (.single (.call hconstruct))) hv.operand ?_ ?_
      · intro dest
        rw [retarget?, List.getLast?_concat]
      · intro dest
        rw [retarget?, List.getLast?_concat]
    | newArray element size =>
      refine (hlowered (x := size) List.mem_cons_self .int).bind fun v v' _ => ?_
      exact .mono (assignTemp_lightens rfl) fun Γ a a' ha hv => ha hv.code (.newArray _ hv.operand)
    | arrayAccess array index =>
      have hindex : index ∈ Kind.children (.arrayAccess array index) := mem_second
      simp only [Kind.map, checkTypesAt, List.append_eq_nil_iff] at htypes
      refine (harray (x := array) List.mem_cons_self htypes.1).bind fun v v' hv => ?_
      refine (toVar_lightens hv.1 hv.2).bind fun a a' hx => ?_
      obtain ⟨x, q⟩ := a
      obtain ⟨x', q'⟩ := a'
      refine (hlowered hindex .int).bind fun u u' _ => ?_
      refine .mono (assignTemp_lightens ?_) fun Γ a a' ha hu hx hv => ?_
      · exact congrArg IrType.element (hx hv.1).2.2
      · obtain ⟨hcode, hname, htype⟩ := hx hv.1
        exact ha (hcode.append hu.code) (.arrayLoad hname htype hu.operand)
    | arrayLength array =>
      simp only [Kind.map, checkTypesAt] at htypes
      refine (harray (x := array) List.mem_cons_self htypes).bind fun v v' hv => ?_
      refine (toVar_lightens hv.1 hv.2).bind fun a a' hx => ?_
      obtain ⟨x, q⟩ := a
      obtain ⟨x', q'⟩ := a'
      refine .mono (assignTemp_lightens rfl) fun Γ a a' ha hx hv => ?_
      obtain ⟨hcode, hname, -⟩ := hx hv.1
      exact ha hcode (.arrayLength hname)
    | arrayLit elements =>
      have htype := hwhole.alike.type d
      have helements : ∀ x ∈ elements, sc.Alike (fun _ => False) x.1 x.2 :=
        fun x hx => (below x hx).2.1.alike
      simp only [Kind.map] at htype ⊢
      simp only [lowerExpr]
      rw [htype, Alike.elementDemands helements]
      exact (packArray_lightens _ (lowerEach_lightens (fun x hx => hlowered hx) _)).bind
        fun _ _ _ => .pure fun Γ _ h => h
    | call receiver method arguments =>
      have htype := hwhole.alike.type d
      have hwell := (happroves.child (below receiver List.mem_cons_self).1).wellFormed
      simp only [Kind.map] at htype ⊢
      simp only [lowerExpr_call]
      rw [htype]
      refine (lowerCall_lightens _ method hwell (fun x hx => (below x hx).2.1)
        fun x hx => hlowered hx).bind fun a a' hc => ?_
      obtain ⟨c, q⟩ := a
      obtain ⟨c', q'⟩ := a'
      rw [hc.1.returnType]
      split
      · exact .throw
      · refine .mono (assignTemp_lightens hc.1.returnType) fun Γ a a' ha hc => ?_
        exact ha hc.2 (.call hc.1)

/-! ## Statements -/

/-- The second lowering gives lighter code. -/
abbrev LightensCode (r : List String) (x x' : Lower Code) : Prop := Lightens r x x' CodeLighter

theorem lowerAssign_lightens (hr : sc.Reserves r) (target : String) (p : Position)
    {x x' : Lower Value} (hx : LightensValue r x x') :
    LightensCode r (sc.lowerAssign target p x) (sc.lowerAssign target p x') := by
  have hassign {b : Binding} (hb : sc.lookup? target = some b) (hvar : b.isMethodVariable = true)
      (v v' : Value) : Lightens r
        (pure ((retarget? ⟨target, .ofTy b.type⟩ v).getD
          (v.code ++ [.assign ⟨target, .ofTy b.type⟩ (.single v.operand)])))
        (pure ((retarget? ⟨target, .ofTy b.type⟩ v').getD
          (v'.code ++ [.assign ⟨target, .ofTy b.type⟩ (.single v'.operand)])))
        fun Γ q q' => v.Lighter Γ v' → CodeLighter Γ q q' :=
    .pure fun Γ hΓ hv => hv.assigned (hΓ target (hr target b hb hvar))
  refine hx.bind fun v v' _ => ?_
  split
  · exact hassign ‹_› rfl v v'
  · exact hassign ‹_› rfl v v'
  · exact .pure fun Γ _ hv => hv.code.append (.single (.putField _ (.same rfl) hv.operand))
  · exact .throw
  · exact .throw

theorem lowerArrayName_lightens (hr : sc.Reserves r) (target : String) (p : Position) :
    Lightens r (sc.lowerArrayName target p) (sc.lowerArrayName target p) fun Γ a a' =>
      Γ a.1.name a'.1.name ∧ CodeLighter Γ a.2 a'.2 := by
  unfold lowerArrayName
  split
  · exact .pure fun Γ hΓ => ⟨hΓ target (hr target _ ‹_› rfl), .nil⟩
  · exact .pure fun Γ hΓ => ⟨hΓ target (hr target _ ‹_› rfl), .nil⟩
  · refine (Lightens.temp _).bind fun dest dest' _ => .pure fun Γ _ hdest => ⟨hdest.1, ?_⟩
    exact .single (.assign hdest.1 (.same rfl))
  · exact .throw
  · exact .throw

/-- **A simplified expression whose value is dropped has lighter code.** -/
theorem lowerDropped_lightens (hplaced : sc.placed = none)
    (hclass : IsIdentifier sc.table.className) (hr : sc.Reserves r)
    (h : Node.Simplified t (some sc) n n') (happroves : sc.Approves n) (hn : n.IsExpr) :
    LightensCode r (sc.lowerDropped n) (sc.lowerDropped n') := by
  have hvalue {m m' : Node} (h : Node.Simplified t (some sc) m m') (happroves : sc.Approves m)
      (hm : m.IsExpr) : LightensCode r (do return (← sc.lowerExpr .void m).code)
        (do return (← sc.lowerExpr .void m').code) :=
    (lowerExpr_lightens hplaced hclass hr h happroves hm .void).bind fun v v' _ =>
      .pure fun Γ _ hv => hv.code
  refine Node.Simplified.within
    (motive := fun n n' => sc.Approves n → n.IsExpr →
      LightensCode r (sc.lowerDropped n) (sc.lowerDropped n'))
    (fun n c _ _ _ _ _ => ?_) (fun i p k hwhole below happroves hn => ?_) h
    (fun m hm => (happroves.wellFormed.isExpr_of_mem_preorder hn hm).not_method) happroves hn
  · have hlower : sc.lowerDropped (n.become c) = pure [] := by cases c <;> rfl
    rw [hlower]
    refine .pure_right fun s p s₁ hs hp => ⟨?_, fun _ _ => .nil⟩
    exact (sc.lowerDropped_makes hr n s p s₁ hs hp).precedes
  · have hexpr {x : Node × Node} (hx : x ∈ k.children) : x.1.IsExpr :=
      happroves.wellFormed.isExpr_of_mem_children hn (below x hx).1
    cases k with
    | program | importDecl | classDecl | varDecl | methodDecl | param | assign | arrayAssign
    | returning | ifElse | whileLoop | block | exprStmt => cases hn
    | paren inner =>
      obtain ⟨hmem, -, hinner⟩ := below inner List.mem_cons_self
      exact hinner (happroves.child hmem) (hexpr List.mem_cons_self)
    | call receiver method arguments =>
      have htype := hwhole.alike.type .void
      have hwell := (happroves.child (below receiver List.mem_cons_self).1).wellFormed
      simp only [Kind.map] at htype ⊢
      simp only [lowerDropped_call]
      rw [htype]
      refine (lowerCall_lightens _ method hwell (fun x hx => (below x hx).2.1) fun x hx d =>
        lowerExpr_lightens hplaced hclass hr (below x hx).2.1 (happroves.child (below x hx).1)
          (hexpr hx) d).bind fun _ _ _ => .pure fun Γ _ hc => ?_
      exact hc.2.append (.single (.call hc.1))
    | _ => exact hvalue hwhole happroves hn

theorem lowerStmts_lightens {ns ns' : List Node}
    (h : List.Forall₂ (fun n n' => LightensCode r (sc.lowerStmt n) (sc.lowerStmt n')) ns ns') :
    LightensCode r (sc.lowerStmts ns) (sc.lowerStmts ns') := by
  induction h with
  | nil => exact .pure fun Γ _ => .nil
  | cons hn _ ih =>
    exact hn.bind fun p p' _ => ih.bind fun q q' _ => .pure fun Γ _ hq hp => hp.append hq

/-- **A statement that is simplified has lighter code.** -/
theorem lowerStmt_lightens (hplaced : sc.placed = none) (hclass : IsIdentifier sc.table.className)
    (hr : sc.Reserves r) (h : Node.Simplified t (some sc) n n') (happroves : sc.Approves n)
    (hn : n.IsStmt) (hmethods : ∀ m ∈ n.preorder, m.label ≠ .methodDecl) :
    LightensCode r (sc.lowerStmt n) (sc.lowerStmt n') := by
  refine Node.Simplified.within
    (motive := fun n n' => sc.Approves n → n.IsStmt →
      LightensCode r (sc.lowerStmt n) (sc.lowerStmt n'))
    (fun n c hexpr _ _ _ hn => ?_) (fun i p k _ below happroves hn => ?_) h hmethods happroves hn
  · exact absurd hexpr hn.not_isExpr
  · have hlower {x : Node × Node} (hx : x ∈ k.children) (hexpr : x.1.IsExpr) (d : Ty) :
        LightensValue r (sc.lowerExpr d x.1) (sc.lowerExpr d x.2) :=
      lowerExpr_lightens hplaced hclass hr (below x hx).2.1 (happroves.child (below x hx).1) hexpr d
    have hbranch {x : Node × Node} (hx : x ∈ k.children) (hstmt : x.1.IsStmt) :
        LightensCode r (sc.lowerStmt x.1) (sc.lowerStmt x.2) :=
      (below x hx).2.2 (happroves.child (below x hx).1) hstmt
    have hfits := happroves.wellFormed.fits
    cases k with
    | assign target value =>
      exact lowerAssign_lightens hr target p
        (hlower (x := value) List.mem_cons_self (hfits _ List.mem_cons_self) _)
    | arrayAssign target index value =>
      have hvalue : value ∈ Kind.children (.arrayAssign target index value) := mem_second
      refine (lowerArrayName_lightens hr target p).bind fun (x, q) (x', q') _ => ?_
      refine (hlower (x := index) List.mem_cons_self (hfits _ List.mem_cons_self) .int).bind
        fun u u' _ => ?_
      refine (hlower hvalue (hfits _ mem_second) _).bind
        fun v v' _ => .pure fun Γ _ hv hu hx => ?_
      exact ((hx.2.append hu.code).append hv.code).append
        (.single (.arrayStore hx.1 hu.operand hv.operand))
    | returning value =>
      cases value with
      | none => exact .pure fun Γ _ => .free_cons Instr.isFree_ret .nil
      | some value =>
        refine (hlower (x := value) List.mem_cons_self (hfits _ List.mem_cons_self) _).bind
          fun v v' _ => .pure fun Γ _ hv => ?_
        exact hv.code.append (.single (.ret hv.operand))
    | ifElse c thenBranch elseBranch =>
      obtain ⟨hc, hthen, helse⟩ := hfits
      have hcond := hlower (x := c) List.mem_cons_self hc .boolean
      have hthenCode := hbranch (x := thenBranch) mem_second hthen
      cases elseBranch with
      | none =>
        refine (Lightens.label .ifElse).bind fun n n' _ => hcond.bind fun v v' _ =>
          hthenCode.bind fun q q' _ => .pure fun Γ _ hq hv _ => ?_
        refine ((hv.code.append ?_).append hq).append (.free_cons (Instr.isFree_label _) .nil)
        exact .cons (.branch hv.operand) (.free_cons (Instr.isFree_goto _)
          (.free_cons (Instr.isFree_label _) .nil))
      | some elseBranch =>
        have helseCode := hbranch (x := elseBranch) mem_third (helse _ rfl)
        refine (Lightens.label .ifElse).bind fun n n' _ => hcond.bind fun v v' _ =>
          helseCode.bind fun u u' _ => hthenCode.bind fun q q' _ =>
            .pure fun Γ _ hq hu hv _ => ?_
        have hlabel (l l' : String) : CodeLighter Γ [.label l] [.label l'] :=
          .free_cons (Instr.isFree_label _) .nil
        refine (((hv.code.append (CodeLighter.closeWith ?_ _ _)).append (hlabel _ _)).append
          hq).append (hlabel _ _)
        exact .cons (.branch hv.operand) hu
    | whileLoop c body =>
      obtain ⟨hc, hbody⟩ := hfits
      have hcond := hlower (x := c) List.mem_cons_self hc .boolean
      have hbodyCode := hbranch (x := body) mem_second hbody
      refine (Lightens.label .whileLoop).bind fun n n' _ => hcond.bind fun v v' _ =>
        hbodyCode.bind fun q q' _ => .pure fun Γ _ hq hv _ => ?_
      have hlabel (l l' : String) : CodeLighter Γ [.label l] [.label l'] :=
        .free_cons (Instr.isFree_label _) .nil
      refine ((((hlabel _ _).append hv.code).append ?_).append hq).append ?_
      · exact .cons (.branch hv.operand) (.free_cons (Instr.isFree_goto _)
          (.free_cons (Instr.isFree_label _) .nil))
      · exact .free_cons (Instr.isFree_goto _) (.free_cons (Instr.isFree_label _) .nil)
    | block statements =>
      refine lowerStmts_lightens ?_
      rw [List.forall₂_map_left_iff, List.forall₂_map_right_iff, List.forall₂_same]
      exact fun x hx => hbranch hx (hfits x.1 (List.mem_map_of_mem hx))
    | exprStmt e =>
      obtain ⟨hmem, he, -⟩ := below e List.mem_cons_self
      exact lowerDropped_lightens hplaced hclass hr he (happroves.child hmem)
        (hfits _ List.mem_cons_self)
    | _ => cases hn

end Scope

end MiniJava
