import MiniJava.Optimize
import MiniJava.Proofs.Layout.Tree
import MiniJava.Proofs.Optimize.Folding

/-!
# The optimizer does not depend on positions

Each pass replaces the same nodes of a tree and of the tree without positions, so both are done
after the same number of rounds (`optimize_unplaced`).
-/

namespace MiniJava

namespace Counted

variable {α β : Type}

theorem value_map (f : α → β) (c : Counted α) : (f <$> c).value = f c.value := rfl

theorem count_map (f : α → β) (c : Counted α) : (f <$> c).count = c.count := rfl

theorem isChanged_map (f : α → β) (c : Counted α) : (f <$> c).isChanged = c.isChanged :=
  Bool.or_false _

end Counted

/-! ## Folding -/

namespace Node

variable (n : Node) (ns : List Node)

@[simp] theorem literal?_unplaced : n.unplaced.literal? = n.literal? := by
  obtain ⟨i, p, k⟩ := n
  cases k <;> rfl

@[simp] theorem unplaced_become (c : Constant) : (n.become c).unplaced = n.unplaced.become c := by
  obtain ⟨i, p, k⟩ := n
  cases c <;> simp [become, Constant.toKind, Kind.map]

theorem foldHere_unplaced : n.unplaced.foldHere = unplaced <$> n.foldHere := by
  have hfoldable : (n.kind.map unplaced).foldable? literal? = n.kind.foldable? literal? := by
    cases n.kind <;> simp [Kind.map, Kind.foldable?]
  unfold foldHere
  rw [unplaced_kind, hfoldable]
  cases n.kind.foldable? literal? with
  | none => rfl
  | some c => exact congrArg Counted.once (n.unplaced_become c).symm

variable {f : Node → Counted Node}

/-- A rewriting does not depend on positions if it does not at any node. -/
theorem rewrite_unplaced (hf : ∀ m : Node, f m.unplaced = unplaced <$> f m) :
    rewrite f n.unplaced = unplaced <$> rewrite f n := by
  induction n using induction with
  | step n ih =>
    have hbelow : n.unplaced.withRewritten f = (n.withRewritten f).unplaced := by
      have hkind : (n.kind.map unplaced).map (fun c => (rewrite f c).value) =
          (n.kind.map fun c => (rewrite f c).value).map unplaced := by
        rw [Kind.map_map, Kind.map_map]
        exact Kind.map_congr fun c hc => congrArg Counted.value (ih c hc)
      rw [withRewritten, withRewritten, mapChildren, mapChildren, unplaced_mk, ← hkind, unplaced_eq]
    have hcounts : (n.unplaced.children.map fun c => (rewrite f c).count) =
        n.children.map fun c => (rewrite f c).count := by
      rw [unplaced_children, List.map_map]
      refine List.map_congr_left fun c hc => ?_
      rw [Function.comp_apply, ih c hc, Counted.count_map]
    have hvalue : (rewrite f n.unplaced).value = (rewrite f n).value.unplaced := by
      rw [value_rewrite, value_rewrite, hbelow, hf, Counted.value_map]
    have hcount : (rewrite f n.unplaced).count = (rewrite f n).count := by
      rw [count_rewrite, count_rewrite, hbelow, hf, hcounts, Counted.count_map]
    exact Counted.ext hvalue hcount

end Node

theorem foldConstants_unplaced (n : Node) :
    foldConstants n.unplaced = Node.unplaced <$> foldConstants n :=
  n.rewrite_unplaced Node.foldHere_unplaced

/-! ## Propagation -/

namespace Node

variable (k : Known)

theorem substituteAll_unplaced_of {ns : List Node}
    (h : ∀ n ∈ ns, n.unplaced.substitute k = unplaced <$> n.substitute k) :
    substituteAll k (ns.map unplaced) = List.map unplaced <$> substituteAll k ns := by
  induction ns with
  | nil => rfl
  | cons n ns ih =>
    obtain ⟨hn, hns⟩ := List.forall_mem_cons.mp h
    simp only [List.map_cons, substituteAll, hn, ih hns, map_bind, bind_map_left, map_pure]

@[simp] theorem substitute_unplaced (n : Node) :
    n.unplaced.substitute k = unplaced <$> n.substitute k := by
  induction n using induction with
  | step n ih =>
    obtain ⟨i, p, kind⟩ := n
    rw [unplaced_mk]
    cases kind with
    | varRef name =>
      simp only [Kind.map, substitute]
      cases k.get? name with
      | none => rfl
      | some c => cases c <;> rfl
    | binary op l r =>
      have hl := ih l List.mem_cons_self
      have hr := ih r mem_second
      simp only [Kind.map, substitute, hl, hr, map_bind, bind_map_left, map_pure, unplaced_mk]
    | arrayAccess a e =>
      have ha := ih a List.mem_cons_self
      have he := ih e mem_second
      simp only [Kind.map, substitute, ha, he, map_bind, bind_map_left, map_pure, unplaced_mk]
    | unary | newArray | arrayLength | paren =>
      have he := ih _ List.mem_cons_self
      simp only [Kind.map, substitute, he, map_bind, bind_map_left, map_pure, unplaced_mk]
    | arrayLit es =>
      have hes : substituteAll k (es.map unplaced) = List.map unplaced <$> substituteAll k es :=
        substituteAll_unplaced_of k ih
      simp only [Kind.map, substitute, hes, map_bind, bind_map_left, map_pure, unplaced_mk]
    | call r m as =>
      have hr := ih r List.mem_cons_self
      have has := substituteAll_unplaced_of k fun c hc => ih c (List.mem_cons_of_mem r hc)
      simp only [Kind.map, substitute, hr, has, map_bind, bind_map_left, map_pure, unplaced_mk]
    | returning v => cases v <;> simp [Kind.map, substitute]
    | ifElse c t e => cases e <;> simp [Kind.map, substitute]
    | _ => simp only [Kind.map, substitute, map_pure, unplaced_mk]

@[simp] theorem assignedNames_unplaced (n : Node) :
    n.unplaced.assignedNames = n.assignedNames := by
  rw [assignedNames, preorder_unplaced, assignedNames, List.filterMap_map]
  refine List.filterMap_congr fun m _ => ?_
  simp only [Function.comp_def, unplaced_kind]
  cases m.kind <;> rfl

variable (tracked : List String)

theorem propagateAll_unplaced_of {ns : List Node}
    (h : ∀ n ∈ ns, ∀ k, n.unplaced.propagate tracked k =
      (fun r => (r.1.unplaced, r.2)) <$> n.propagate tracked k) (k : Known) :
    propagateAll tracked k (ns.map unplaced) =
      (fun r => (r.1.map unplaced, r.2)) <$> propagateAll tracked k ns := by
  induction ns generalizing k with
  | nil => rfl
  | cons n ns ih =>
    obtain ⟨hn, hns⟩ := List.forall_mem_cons.mp h
    simp only [List.map_cons, propagateAll, hn, map_bind, bind_map_left, map_pure]
    refine bind_congr fun r => ?_
    rw [ih hns, bind_map_left]

theorem propagate_unplaced (n : Node) (k : Known) :
    n.unplaced.propagate tracked k = (fun r => (r.1.unplaced, r.2)) <$> n.propagate tracked k := by
  induction n using induction generalizing k with
  | step n ih =>
    obtain ⟨i, p, kind⟩ := n
    rw [unplaced_mk]
    cases kind with
    | assign | arrayAssign | exprStmt =>
      simp only [Kind.map, propagate, substitute_unplaced, literal?_unplaced, map_bind,
        bind_map_left, map_pure, unplaced_mk]
    | returning v =>
      cases v with
      | none => rfl
      | some v =>
        simp only [Kind.map, Option.map_some, propagate, substitute_unplaced, map_bind,
          bind_map_left, map_pure, unplaced_mk]
    | block ss =>
      have hss : propagateAll tracked k (ss.map unplaced) =
          (fun r => (r.1.map unplaced, r.2)) <$> propagateAll tracked k ss :=
        propagateAll_unplaced_of tracked ih k
      simp only [Kind.map, propagate, hss, map_bind, bind_map_left, map_pure, unplaced_mk]
    | ifElse c t e? =>
      have ht := ih t mem_second
      cases e? with
      | none =>
        simp only [Kind.map, Option.map_none, propagate, substitute_unplaced, ht, map_bind,
          bind_map_left, map_pure, unplaced_mk]
      | some e =>
        have he := ih e mem_third
        simp only [Kind.map, Option.map_some, propagate, substitute_unplaced, ht, he, map_bind,
          bind_map_left, map_pure, unplaced_mk]
    | whileLoop c b =>
      have hb := ih b mem_second
      simp only [Kind.map, propagate, substitute_unplaced, assignedNames_unplaced, hb, map_bind,
        bind_map_left, map_pure, unplaced_mk]
    | _ => simp only [Kind.map, propagate, map_pure, unplaced_mk]

theorem propagateAll_unplaced (ns : List Node) (k : Known) :
    propagateAll tracked k (ns.map unplaced) =
      (fun r => (r.1.map unplaced, r.2)) <$> propagateAll tracked k ns :=
  propagateAll_unplaced_of tracked (fun n _ => n.propagate_unplaced tracked) k

end Node

section

variable (t : SymbolTable)

theorem propagateMethod_unplaced (n : Node) :
    propagateMethod t n.unplaced = Node.unplaced <$> propagateMethod t n := by
  obtain ⟨i, p, k⟩ := n
  rw [Node.unplaced_mk]
  cases k with
  | methodDecl head params locals body =>
    simp only [propagateMethod, Kind.map, Node.propagateAll_unplaced, map_bind, bind_map_left,
      map_pure, Node.unplaced_mk]
  | _ => simp only [propagateMethod, Kind.map, map_pure, Node.unplaced_mk]

theorem mapM_propagateMethod_unplaced (ns : List Node) :
    (ns.map Node.unplaced).mapM (propagateMethod t) =
      List.map Node.unplaced <$> ns.mapM (propagateMethod t) := by
  induction ns with
  | nil => rfl
  | cons n ns ih =>
    simp only [List.map_cons, List.mapM_cons, propagateMethod_unplaced, ih, map_bind, bind_map_left,
      map_pure]

theorem propagateItems_unplaced (ns : List Node) :
    propagateItems t (ns.map Node.unplaced) = List.map Node.unplaced <$> propagateItems t ns := by
  induction ns with
  | nil => rfl
  | cons n ns ih =>
    obtain ⟨i, p, k⟩ := n
    rw [List.map_cons, Node.unplaced_mk]
    cases k with
    | classDecl name superclass fields methods =>
      simp only [propagateItems, Kind.map, mapM_propagateMethod_unplaced, map_bind, bind_map_left,
        map_pure, List.map_cons, Node.unplaced_mk]
    | _ =>
      simp only [propagateItems, Kind.map, ih, map_bind, bind_map_left, map_pure, List.map_cons,
        Node.unplaced_mk]

theorem propagateConstants_unplaced (n : Node) :
    propagateConstants t n.unplaced = Node.unplaced <$> propagateConstants t n := by
  obtain ⟨i, p, k⟩ := n
  rw [Node.unplaced_mk]
  cases k with
  | program items =>
    simp only [propagateConstants, Kind.map, propagateItems_unplaced, map_bind, bind_map_left,
      map_pure, Node.unplaced_mk]
  | _ => simp only [propagateConstants, Kind.map, map_pure, Node.unplaced_mk]

end

/-! ## Rounds -/

/-- Passes that do not depend on what `f` hides end after as many rounds. -/
theorem alternate_map {α : Type} {f : α → α} {propagate fold : α → Counted α}
    (hp : ∀ a, propagate (f a) = f <$> propagate a) (hf : ∀ a, fold (f a) = f <$> fold a)
    (left : Nat) (stats : OptimizationStats) (a : α) :
    alternate propagate fold left stats (f a) =
      (alternate propagate fold left stats a).map (Prod.map f id) := by
  induction left generalizing stats a with
  | zero => rfl
  | succ left ih =>
    simp only [alternate, hp, hf, Counted.value_map, Counted.count_map, Counted.isChanged_map, ih]
    rw [apply_ite (Except.map (Prod.map f id))]
    rfl

theorem Node.size_unplaced (n : Node) : n.unplaced.size = n.size := by
  rw [← card_preorder, preorder_unplaced, List.length_map, card_preorder]

/-- **The optimizer does the same without positions.** -/
theorem optimize_unplaced (t : SymbolTable) (root : Node) :
    optimize t root.unplaced = (optimize t root).map (Prod.map Node.unplaced id) := by
  rw [optimize, Node.size_unplaced, optimize]
  exact alternate_map (propagateConstants_unplaced t) foldConstants_unplaced _ _ root

end MiniJava
