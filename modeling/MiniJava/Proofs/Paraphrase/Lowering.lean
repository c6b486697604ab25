import MiniJava.Proofs.Lowering.CallType
import MiniJava.Proofs.Paraphrase.Declarations

/-!
# Paraphrases have the same code

A paraphrase of a program is lowered to the same code with the same names, or its lowering fails in
the same way at another place (`lower_eq`). `Lower.unplaced` hides the place in the failure of a
lowering; it goes through every step of a lowering (`Lower.unplaced_bind` and its likes), so it is
enough to look at the places where a lowering fails.
-/

namespace MiniJava

open Ir
open Node (Paraphrases Place)

/-! ## Failures without positions -/

/-- A failed lowering without its position. -/
def Ir.LoweringError.unplaced : LoweringError → LoweringError
  | unresolvedVariable name method _ => unresolvedVariable name method .unknown
  | invalidAssignTarget name _ => invalidAssignTarget name .unknown
  | voidValue method _ => voidValue method .unknown
  | unknownType construct _ never => unknownType construct .unknown never
  | unexpectedNode expected found => unexpectedNode expected found

@[simp] theorem Ir.LoweringError.message_unplaced (e : LoweringError) :
    e.unplaced.message = e.message := by
  cases e <;> rfl

namespace Ir.Lower

variable {α β : Type}

/-- A lowering whose failure has no position. -/
def unplaced (x : Lower α) : Lower α := fun s => (x.run s).mapError LoweringError.unplaced

@[simp] theorem unplaced_pure (a : α) : unplaced (pure a) = pure a := rfl

@[simp] theorem unplaced_throw (e : LoweringError) :
    unplaced (throw e : Lower α) = throw e.unplaced := rfl

@[simp] theorem unplaced_bind (x : Lower α) (f : α → Lower β) :
    unplaced (x >>= f) = unplaced x >>= fun a => unplaced (f a) := by
  funext s
  change ((x >>= f).run s).mapError _ = ((unplaced x) >>= fun a => unplaced (f a)).run s
  rw [StateT.run_bind, StateT.run_bind]
  change _ = ((x.run s).mapError _) >>= _
  cases x.run s <;> rfl

@[simp] theorem unplaced_map (f : α → β) (x : Lower α) :
    unplaced (f <$> x) = f <$> unplaced x := by
  rw [← bind_pure_comp, unplaced_bind, ← bind_pure_comp]
  rfl

@[simp] theorem unplaced_temp (t : IrType) : unplaced (temp t) = temp t := rfl

@[simp] theorem unplaced_label (k : LabelKind) : unplaced (label k) = label k := rfl

@[simp] theorem unplaced_assignTemp (code : Code) (rhs : Rhs) :
    unplaced (assignTemp code rhs) = assignTemp code rhs := rfl

@[simp] theorem unplaced_toVar (v : Value) : unplaced (toVar v) = toVar v := by
  obtain ⟨operand, code⟩ := v
  cases operand <;> rfl

variable (a b : Lower Value) (vs : List (Lower Value))

@[simp] theorem unplaced_inOrder : unplaced (inOrder vs) = inOrder (vs.map unplaced) := by
  induction vs with
  | nil => rfl
  | cons v vs ih => simp [inOrder, ih]

@[simp] theorem unplaced_packArray (t : IrType) :
    unplaced (packArray t vs) = packArray t (vs.map unplaced) := by
  have hstore (array : Var) (i : Nat) :
      unplaced (storeFrom array i vs) = storeFrom array i (vs.map unplaced) := by
    induction vs generalizing i with
    | nil => rfl
    | cons v vs ih => simp [storeFrom, ih]
  simp [packArray, hstore]

@[simp] theorem unplaced_binary (op : BinaryOp) :
    unplaced (Lower.binary op a b) = Lower.binary op a.unplaced b.unplaced := by
  cases op <;> simp [Lower.binary, BinOp.ofOperator?, conjunction, disjunction]

end Ir.Lower

/-! ## Expressions -/

namespace Scope

open Lower (unplaced)

variable {sc : Scope} {P : Vars → Prop} {place : Place} {n n' : Node}

theorem unplaced_lowerName (name : String) (p q : Position) :
    unplaced (sc.lowerName name q) = unplaced (sc.lowerName name p) := by
  unfold lowerName
  cases sc.lookup? name with
  | none => rfl
  | some b => cases b <;> rfl

/-- What is no import is not found as one. -/
theorem lookup?_ne_imported {name : String} (h : sc.table.isImported name = false)
    (path : String) : sc.lookup? name ≠ some (.imported path) := by
  have hnone : sc.table.qualifiedImport? name = none := Option.not_isSome_iff_eq_none.mp (by
    rw [← SymbolTable.isImported, h]
    exact Bool.false_ne_true)
  unfold lookup?
  rw [hnone]
  intro hlookup
  split at hlookup
  · cases ‹none = some _›
  · simp only at hlookup
    repeat' split at hlookup
    all_goals simp only [Option.map_eq_some_iff, reduceCtorEq, Option.some.injEq, and_false,
      exists_const] at hlookup

/-- A receiver names the same class: the name of an import is not put in parentheses. -/
theorem staticReceiver?_eq (h : Paraphrases sc.table place n n') :
    sc.staticReceiver? n' = sc.staticReceiver? n := by
  cases h with
  | @node _ i j p q k => cases k <;> rfl
  | @paren n n' i p _ _ notImport =>
    have hnone : sc.staticReceiver? ⟨i, p, .paren n'⟩ = none := rfl
    rw [hnone]
    unfold staticReceiver?
    cases hkind : n.kind with
    | varRef name =>
      dsimp only
      split
      · exact absurd ‹_› (lookup?_ne_imported (notImport name hkind) _)
      · rfl
    | _ => rfl

theorem unplaced_lowerArguments {receiver receiver' : Node} (hr : sc.Alike P receiver receiver')
    (method : String) {cs : List (Node × Node)} (h : ∀ x ∈ cs, sc.Alike P x.1 x.2)
    {values values' : List (Lower Value)} (hvalues : values'.map unplaced = values.map unplaced) :
    unplaced (sc.lowerArguments receiver' method (cs.map Prod.snd) values') =
      unplaced (sc.lowerArguments receiver method (cs.map Prod.fst) values) := by
  rw [lowerArguments_eq, lowerArguments_eq, hr.packing?_eq h]
  split
  · simp only [Lower.unplaced_bind, Lower.unplaced_inOrder, Lower.unplaced_packArray, List.map_take,
      List.map_drop, hvalues]
  · rw [Lower.unplaced_inOrder, Lower.unplaced_inOrder, hvalues]

theorem unplaced_lowerCall (type : IrType) {receiver receiver' : Node} (method : String)
    (hr : Paraphrases sc.table place receiver receiver') (hplaced : sc.placed = none)
    {cs : List (Node × Node)} (h : ∀ x ∈ cs, sc.Alike P x.1 x.2) {target target' : Lower Value}
    {values values' : List (Lower Value)} (htarget : unplaced target' = unplaced target)
    (hvalues : values'.map unplaced = values.map unplaced) :
    unplaced (sc.lowerCall type receiver' method (cs.map Prod.snd) target' values') =
      unplaced (sc.lowerCall type receiver method (cs.map Prod.fst) target values) := by
  have halike : sc.Alike P receiver receiver' := hr.alike hplaced
  have harguments := unplaced_lowerArguments halike method h hvalues
  have hparams (arity : Nat) : sc.declaredParams? receiver' method arity =
      sc.declaredParams? receiver method arity := by
    rw [declaredParams?, halike.isLocalReceiver, declaredParams?]
  simp only [lowerCall, staticReceiver?_eq hr, hparams]
  cases sc.staticReceiver? receiver <;>
    simp only [Lower.unplaced_bind, Lower.unplaced_pure, htarget, harguments]

theorem unplaced_lowerEach_of {cs : List (Node × Node)}
    (h : ∀ x ∈ cs, ∀ d, unplaced (sc.lowerExpr d x.2) = unplaced (sc.lowerExpr d x.1))
    (ds : List Ty) : (sc.lowerEach ds (cs.map Prod.snd)).map unplaced =
      (sc.lowerEach ds (cs.map Prod.fst)).map unplaced := by
  induction cs generalizing ds with
  | nil => rfl
  | cons x xs ih =>
    obtain ⟨hx, hxs⟩ := List.forall_mem_cons.mp h
    simp only [List.map_cons, lowerEach, hx, ih hxs]

/-- **A paraphrase of an expression has the same code.** -/
theorem unplaced_lowerExpr (h : Paraphrases sc.table place n n') (hplaced : sc.placed = none)
    (d : Ty) : unplaced (sc.lowerExpr d n') = unplaced (sc.lowerExpr d n) := by
  induction h generalizing d with
  | paren _ _ _ ih => exact ih d
  | @node place i j p q k below parts ih _ =>
    have halike (x : Node × Node) (hx : x ∈ k.children) : sc.Alike (fun _ => True) x.1 x.2 :=
      (below x hx).alike hplaced
    have hnode : Paraphrases sc.table place ⟨i, p, k.map Prod.fst⟩ ⟨j, q, k.map Prod.snd⟩ :=
      .node below parts
    have htype (d : Ty) : sc.typeOf? d ⟨j, q, k.map Prod.snd⟩ =
        sc.typeOf? d ⟨i, p, k.map Prod.fst⟩ :=
      (hnode.alike hplaced : sc.Alike (fun _ => True) _ _).type d
    cases k with
    | varRef name => exact unplaced_lowerName name p q
    | paren inner => exact ih inner List.mem_cons_self d
    | binary op l r =>
      have hl := ih l List.mem_cons_self
      have hr := ih r mem_second
      have hdemands := (halike l List.mem_cons_self).operandDemands
        (halike r mem_second) op
      simp only [Kind.map, lowerExpr, hdemands, Lower.unplaced_binary, hl, hr]
    | unary op e =>
      have he := ih e List.mem_cons_self
      cases op
      simp only [Kind.map, lowerExpr, Lower.unplaced_bind, he]
    | arrayAccess a e =>
      have ha := ih a List.mem_cons_self
      have he := ih e mem_second
      simp only [Kind.map, lowerExpr, Lower.unplaced_bind, ha, he]
    | arrayLength e | newArray t e =>
      have he := ih e List.mem_cons_self
      simp only [Kind.map, lowerExpr, Lower.unplaced_bind, he]
    | arrayLit es =>
      have hes (ds : List Ty) : (sc.lowerEach ds (es.map Prod.snd)).map unplaced =
          (sc.lowerEach ds (es.map Prod.fst)).map unplaced := unplaced_lowerEach_of ih ds
      have hdemands : sc.elementDemands (es.map Prod.snd) = sc.elementDemands (es.map Prod.fst) :=
        Alike.elementDemands halike
      simp only [Kind.map] at htype
      simp only [Kind.map, lowerExpr, htype, hdemands, Lower.unplaced_bind,
        Lower.unplaced_packArray, hes]
    | call r m as =>
      have hargs (x : Node × Node) (hx : x ∈ as) := halike x (List.mem_cons_of_mem r hx)
      have hcall := unplaced_lowerCall (.ofTy ((sc.typeOf? d
        ⟨i, p, .call r.1 m (as.map Prod.fst)⟩).getD d)) m (below r List.mem_cons_self) hplaced hargs
        (ih r List.mem_cons_self .object)
        (unplaced_lowerEach_of (fun x hx => ih x (List.mem_cons_of_mem r hx))
          (sc.argumentDemands r.1 m (as.map Prod.fst)))
      simp only [Kind.map] at htype
      simp only [Kind.map, lowerExpr_call, htype, (halike r List.mem_cons_self).argumentDemands,
        Lower.unplaced_bind, hcall]
      refine bind_congr fun c => ?_
      split <;> rfl
    | _ => rfl

theorem unplaced_lowerEach {cs : List (Node × Node)}
    (h : ∀ x ∈ cs, Paraphrases sc.table place x.1 x.2) (hplaced : sc.placed = none)
    (ds : List Ty) : (sc.lowerEach ds (cs.map Prod.snd)).map unplaced =
      (sc.lowerEach ds (cs.map Prod.fst)).map unplaced :=
  unplaced_lowerEach_of (fun x hx => unplaced_lowerExpr (h x hx) hplaced) ds

/-! ## Statements -/

theorem unplaced_lowerAssign (target : String) (p q : Position) {value value' : Lower Value}
    (h : unplaced value' = unplaced value) :
    unplaced (sc.lowerAssign target q value') = unplaced (sc.lowerAssign target p value) := by
  rw [lowerAssign, lowerAssign, Lower.unplaced_bind, Lower.unplaced_bind, h]
  refine bind_congr fun v => ?_
  cases sc.lookup? target with
  | none => rfl
  | some b => cases b <;> rfl

theorem unplaced_lowerArrayName (target : String) (p q : Position) :
    unplaced (sc.lowerArrayName target q) = unplaced (sc.lowerArrayName target p) := by
  unfold lowerArrayName
  cases sc.lookup? target with
  | none => rfl
  | some b => cases b <;> rfl

theorem unplaced_lowerDropped (h : Paraphrases sc.table place n n') (hplaced : sc.placed = none) :
    unplaced (sc.lowerDropped n') = unplaced (sc.lowerDropped n) := by
  induction h with
  | paren _ _ _ ih => exact ih
  | @node place i j p q k below parts ih _ =>
    have hnode : Paraphrases sc.table place ⟨i, p, k.map Prod.fst⟩ ⟨j, q, k.map Prod.snd⟩ :=
      .node below parts
    have hexpr := unplaced_lowerExpr hnode hplaced .void
    cases k with
    | paren inner => exact ih inner List.mem_cons_self
    | call r m as =>
      have halike (x : Node × Node) (hx : x ∈ r :: as) : sc.Alike (fun _ => True) x.1 x.2 :=
        (below x hx).alike hplaced
      have htype : sc.typeOf? .void ⟨j, q, .call r.2 m (as.map Prod.snd)⟩ =
          sc.typeOf? .void ⟨i, p, .call r.1 m (as.map Prod.fst)⟩ :=
        (hnode.alike hplaced : sc.Alike (fun _ => True) _ _).type .void
      have hcall := unplaced_lowerCall (.ofTy ((sc.typeOf? .void
        ⟨i, p, .call r.1 m (as.map Prod.fst)⟩).getD .void)) m (below r List.mem_cons_self) hplaced
        (fun x hx => halike x (List.mem_cons_of_mem r hx))
        (unplaced_lowerExpr (below r List.mem_cons_self) hplaced .object)
        (unplaced_lowerEach (fun x hx => below x (List.mem_cons_of_mem r hx)) hplaced
          (sc.argumentDemands r.1 m (as.map Prod.fst)))
      simp only [Kind.map, lowerDropped_call, htype, (halike r List.mem_cons_self).argumentDemands,
        Lower.unplaced_bind, hcall]
    | _ =>
      simp only [Kind.map] at hexpr
      simp only [Kind.map, lowerDropped, Lower.unplaced_bind, hexpr]

theorem unplaced_lowerStmts_of {ns : List (Node × Node)}
    (h : ∀ x ∈ ns, unplaced (sc.lowerStmt x.2) = unplaced (sc.lowerStmt x.1)) :
    unplaced (sc.lowerStmts (ns.map Prod.snd)) = unplaced (sc.lowerStmts (ns.map Prod.fst)) := by
  induction ns with
  | nil => rfl
  | cons x xs ih =>
    obtain ⟨hx, hxs⟩ := List.forall_mem_cons.mp h
    simp only [List.map_cons, lowerStmts, Lower.unplaced_bind, hx, ih hxs]

/-- **A paraphrase of a statement has the same code.** -/
theorem unplaced_lowerStmt (h : Paraphrases sc.table .part n n') (hplaced : sc.placed = none) :
    unplaced (sc.lowerStmt n') = unplaced (sc.lowerStmt n) := by
  generalize hplace : Place.part = place at h
  induction h with
  | paren => cases hplace
  | @node _ i j p q k below _ _ ih =>
    replace ih : ∀ x ∈ k.parts, unplaced (sc.lowerStmt x.2) = unplaced (sc.lowerStmt x.1) :=
      fun x hx => ih x hx rfl
    have hexpr (x : Node × Node) (hx : x ∈ k.children) (d : Ty) :
        unplaced (sc.lowerExpr d x.2) = unplaced (sc.lowerExpr d x.1) :=
      unplaced_lowerExpr (below x hx) hplaced d
    cases k with
    | assign target value =>
      exact unplaced_lowerAssign target p q (hexpr value List.mem_cons_self _)
    | arrayAssign target index value =>
      have hindex := hexpr index List.mem_cons_self
      have hvalue := hexpr value mem_second
      simp only [Kind.map, lowerStmt, Lower.unplaced_bind, unplaced_lowerArrayName target p q,
        hindex, hvalue]
    | returning v =>
      cases v with
      | none => rfl
      | some v =>
        have hv := hexpr v List.mem_cons_self
        simp only [Kind.map, Option.map_some, lowerStmt, Lower.unplaced_bind, hv]
    | ifElse c t e? =>
      have hc := hexpr c List.mem_cons_self
      have ht := ih t List.mem_cons_self
      cases e? with
      | none => simp only [Kind.map, Option.map_none, lowerStmt, Lower.unplaced_bind, hc, ht]
      | some e =>
        have he := ih e mem_second
        simp only [Kind.map, Option.map_some, lowerStmt, Lower.unplaced_bind, hc, ht, he]
    | whileLoop c b =>
      have hc := hexpr c List.mem_cons_self
      have hb := ih b List.mem_cons_self
      simp only [Kind.map, lowerStmt, Lower.unplaced_bind, hc, hb]
    | block ss => exact unplaced_lowerStmts_of ih
    | exprStmt e => exact unplaced_lowerDropped (below e List.mem_cons_self) hplaced
    | _ => rfl

theorem unplaced_lowerStmts {ns : List (Node × Node)}
    (h : ∀ x ∈ ns, Paraphrases sc.table .part x.1 x.2) (hplaced : sc.placed = none) :
    unplaced (sc.lowerStmts (ns.map Prod.snd)) = unplaced (sc.lowerStmts (ns.map Prod.fst)) :=
  unplaced_lowerStmts_of fun x hx => unplaced_lowerStmt (h x hx) hplaced

end Scope

/-! ## Programs -/

section

variable {t : SymbolTable} {n n' : Node}

open Lower (unplaced)

/-- What is lowered member by member is the same if each member is. -/
theorem unplaced_mapM {α : Type} {f : Node → Lower α} {ns : List (Node × Node)}
    (h : ∀ x ∈ ns, unplaced (f x.2) = unplaced (f x.1)) :
    unplaced ((ns.map Prod.snd).mapM f) = unplaced ((ns.map Prod.fst).mapM f) := by
  induction ns with
  | nil => rfl
  | cons x xs ih =>
    obtain ⟨hx, hxs⟩ := List.forall_mem_cons.mp h
    simp only [List.map_cons, List.mapM_cons, Lower.unplaced_bind, hx, ih hxs]

theorem unplaced_lowerParam (h : Paraphrases t .part n n') :
    unplaced (lowerParam n') = unplaced (lowerParam n) := by
  cases h with
  | @node _ i j p q k => cases k <;> rfl

theorem unplaced_lowerMethod (h : Paraphrases t .part n n') :
    unplaced (lowerMethod (Scope.ofMethod t) n') = unplaced (lowerMethod (Scope.ofMethod t) n) := by
  cases h with
  | @node _ i j p q k _ parts =>
    cases k with
    | methodDecl head params locals body =>
      have hparams := unplaced_mapM fun x hx => unplaced_lowerParam
        (parts x (List.mem_append_left _ (List.mem_append_left _ hx)))
      have hbody : unplaced ((Scope.ofMethod t head).lowerStmts (body.map Prod.snd)) =
          unplaced ((Scope.ofMethod t head).lowerStmts (body.map Prod.fst)) :=
        Scope.unplaced_lowerStmts (fun x hx => parts x (List.mem_append_right _ hx)) rfl
      simp only [Kind.map, lowerMethod, Lower.unplaced_bind, hparams, hbody]
    | _ => rfl

/-- **A paraphrase of a program has the same code**, or is refused for the same reason. -/
theorem lower_eq (h : Paraphrases t .part n n') :
    (lower t n').mapError LoweringError.unplaced = (lower t n).mapError LoweringError.unplaced := by
  obtain ⟨ms, hn, hn', hms⟩ := h.exists_methods
  have hmethods := unplaced_mapM fun x hx => unplaced_lowerMethod (hms x hx)
  unfold lower lowerWith
  rw [hn, hn']
  generalize (ms.map Prod.fst).mapM (lowerMethod (Scope.ofMethod t)) = x at hmethods ⊢
  generalize (ms.map Prod.snd).mapM (lowerMethod (Scope.ofMethod t)) = x' at hmethods ⊢
  have hrun : (x'.run (.ofTable t)).mapError LoweringError.unplaced =
      (x.run (.ofTable t)).mapError LoweringError.unplaced := congrFun hmethods (.ofTable t)
  change ((Prod.fst <$> x'.run (.ofTable t)) >>= _).mapError _ =
    ((Prod.fst <$> x.run (.ofTable t)) >>= _).mapError _
  cases hx : x.run (.ofTable t) <;> cases hx' : x'.run (.ofTable t) <;> rw [hx, hx'] at hrun
  case error.error => exact congrArg Except.error (Except.error.inj hrun)
  case error.ok => cases hrun
  case ok.error => cases hrun
  case ok.ok => rw [Except.ok.inj hrun]

end

end MiniJava
