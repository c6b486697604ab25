import Mathlib.Algebra.Order.BigOperators.Group.List
import Mathlib.Algebra.Order.Group.Nat
import MiniJava.Graph.Optimize
import MiniJava.Proofs.Optimize.Congruence
import MiniJava.Proofs.Tree.Numbering

/-!
# Passes on graphs

The passes of the optimizer exist for trees and for graphs. Where the entries of a tree stand in a
table, a pass on the graph puts the entries of the new tree in their place and makes as many
replacements as the pass on the tree does.

`Rewrites` speaks of a part of a pass: wherever some entries stand in a table, they are replaced by
others, and the rest of the table stays. Parts that follow each other are put together by the rules
for it.
-/

namespace MiniJava

/-- A value that it took so many replacements to make. -/
def Counted.counting {α : Type} (value : α) (count : Nat) : Counted α :=
  ⟨value, count, decide (0 < count), rfl⟩

theorem Counted.counting_bind {α β : Type} (a : α) (count : Nat) (f : α → Counted β) :
    counting a count >>= f = counting (f a).value (count + (f a).count) :=
  Counted.ext rfl rfl

/-! ## Numbers that passes keep -/

theorem Node.id_foldConstants (n : Node) : (MiniJava.foldConstants n).value.id = n.id := by
  unfold MiniJava.foldConstants
  rw [value_rewrite]
  unfold foldHere
  split <;> rfl

theorem Node.congruence_id : Congruence fun n n' => n'.id = n.id := ⟨fun _ => rfl⟩

theorem Node.id_substitute (k : Known) (n : Node) : (n.substitute k).value.id = n.id :=
  congruence_id.substitute (fun _ _ _ _ => rfl) k n

theorem Node.id_propagate (tracked : List String) (k : Known) (n : Node) :
    (n.propagate tracked k).value.1.id = n.id :=
  congruence_id.propagate (fun _ _ _ _ => rfl) tracked n k

theorem map_id_propagateAll (tracked : List String) (ns : List Node) (k : Known) :
    (propagateAll tracked k ns).value.1.map Node.id = ns.map Node.id := by
  induction ns generalizing k with
  | nil => rfl
  | cons n ns ih => exact congrArg₂ List.cons (n.id_propagate tracked k) (ih _)

theorem Node.id_propagateMethod (t : SymbolTable) (n : Node) :
    (propagateMethod t n).value.id = n.id :=
  congruence_id.propagateMethod (fun _ _ _ _ => rfl) t n

theorem map_id_propagateItems (t : SymbolTable) (items : List Node) :
    (propagateItems t items).value.map Node.id = items.map Node.id := by
  induction items with
  | nil => rfl
  | cons n ns ih =>
    obtain ⟨i, p, kind⟩ := n
    cases kind with
    | classDecl => rfl
    | _ => exact congrArg (i :: ·) ih

theorem Node.id_propagateConstants (t : SymbolTable) (n : Node) :
    (propagateConstants t n).value.id = n.id :=
  congruence_id.propagateConstants (fun _ _ _ _ => rfl) t n

namespace Graph

/-! ## Entries -/

/-- The entries for a tree, when the parent of the root is given. -/
def entries (n : Node) : Option Nat → List (Nat × GraphNode) :=
  n.fold fun n below parent =>
    (n.id, ⟨n.kind.map Node.id, parent, n.position⟩) :: below.flatMap fun f => f (some n.id)

theorem entries_eq (n : Node) (parent : Option Nat) :
    entries n parent = (n.id, ⟨n.kind.map Node.id, parent, n.position⟩) ::
      n.children.flatMap fun c => entries c (some n.id) := by
  unfold entries
  rw [Node.fold_eq, List.flatMap_map]

theorem map_fst_entries (n : Node) (parent : Option Nat) :
    (entries n parent).map Prod.fst = n.preorder.map Node.id := by
  induction n using Node.induction generalizing parent with
  | step n ih =>
    rw [entries_eq, Node.preorder_eq, List.map_cons, List.map_cons, List.map_flatMap,
      List.map_flatMap]
    exact congrArg (n.id :: ·) (List.flatMap_congr fun c hc => ih c hc (some n.id))

theorem entries_mapChildren (n : Node) {f : Node → Node} (h : ∀ c ∈ n.children, (f c).id = c.id)
    (parent : Option Nat) :
    entries (n.mapChildren f) parent = (n.id, ⟨n.kind.map Node.id, parent, n.position⟩) ::
      n.children.flatMap fun c => entries (f c) (some n.id) := by
  rw [entries_eq, Node.children_mapChildren, List.flatMap_map]
  have hkind : (n.kind.map f).map Node.id = n.kind.map Node.id := by
    rw [Kind.map_map]
    exact Kind.map_congr h
  simp only [Node.mapChildren, hkind]

theorem entries_become (n : Node) (c : Constant) (parent : Option Nat) :
    entries (n.become c) parent = [(n.id, ⟨c.toKind, parent, n.position⟩)] := by
  rw [entries_eq]
  cases c <;> rfl

/-- The table has these entries. -/
def Has (g : Graph) (es : List (Nat × GraphNode)) : Prop := ∀ e ∈ es, g.nodes[e.1]? = some e.2

variable {g : Graph} {es es' es'' fs fs' : List (Nat × GraphNode)} {n : Node}
  {parent : Option Nat}

theorem has_append : g.Has (es ++ fs) ↔ g.Has es ∧ g.Has fs := List.forall_mem_append

theorem Has.kind (h : g.Has (entries n parent)) : g.kind n.id = n.kind.map Node.id := by
  rw [entries_eq] at h
  unfold Graph.kind
  rw [h _ List.mem_cons_self]
  rfl

theorem Has.position (h : g.Has (entries n parent)) : g.position n.id = n.position := by
  rw [entries_eq] at h
  unfold Graph.position
  rw [h _ List.mem_cons_self]
  rfl

theorem Has.child (h : g.Has (entries n parent)) {c : Node} (hc : c ∈ n.children) :
    g.Has (entries c (some n.id)) := by
  rw [entries_eq] at h
  exact fun e he => h e (List.mem_cons_of_mem _ (List.mem_flatMap.mpr ⟨c, hc, he⟩))

theorem Has.literal? (h : g.Has (entries n parent)) : g.literal? n.id = n.literal? := by
  unfold Graph.literal? Node.literal?
  rw [h.kind]
  cases n.kind <;> rfl

/-! ## Edits -/

variable {α β : Type} {x : Edit α} {f : α → Edit β} {a : α} {b : β} {count count' : Nat}

/-- Wherever the entries `es` stand, and no number stands twice, the edit replaces them by `es'` and
leaves all others, and it makes so many replacements. -/
structure Rewrites (x : Edit α) (es es' : List (Nat × GraphNode)) (a : α) (count : Nat) :
    Prop where
  fewer : (es'.map Prod.fst).Sublist (es.map Prod.fst)
  run : ∀ (g : Graph) rest, g.Has (es ++ rest) → ((es ++ rest).map Prod.fst).Nodup →
    ∃ g', x.run g = .counting (a, g') count ∧ g'.Has (es' ++ rest) ∧ g'.nodes.size = g.nodes.size ∧
      g'.root = g.root

namespace Rewrites

protected theorem pure (a : α) (es : List (Nat × GraphNode)) :
    Rewrites (pure a) es es a 0 :=
  ⟨List.Sublist.refl _, fun g _ hg _ => ⟨g, rfl, hg, rfl, rfl⟩⟩

/-- One edit of some entries after another. -/
protected theorem bind (hx : Rewrites x es es' a count) (hf : Rewrites (f a) es' es'' b count') :
    Rewrites (x >>= f) es es'' b (count + count') := by
  refine ⟨hf.fewer.trans hx.fewer, fun g rest hg hnodup => ?_⟩
  obtain ⟨g', hrun, hg', hsize, hroot⟩ := hx.run g rest hg hnodup
  have hnodup' : ((es' ++ rest).map Prod.fst).Nodup := by
    rw [List.map_append] at hnodup ⊢
    exact hnodup.sublist (hx.fewer.append_right _)
  obtain ⟨g'', hrun', hg'', hsize', hroot'⟩ := hf.run g' rest hg' hnodup'
  refine ⟨g'', ?_, hg'', hsize'.trans hsize, hroot'.trans hroot⟩
  calc (x >>= f).run g
      = .counting ((f a).run g').value (count + ((f a).run g').count) := by
        rw [StateT.run_bind, hrun, Counted.counting_bind]
    _ = .counting (b, g'') (count + count') := by
        rw [hrun']
        rfl

/-- Entries behind those that are edited stay. -/
theorem append_right (h : Rewrites x es es' a count) (fs : List (Nat × GraphNode)) :
    Rewrites x (es ++ fs) (es' ++ fs) a count := by
  refine ⟨?_, fun g rest hg hnodup => ?_⟩
  · rw [List.map_append, List.map_append]
    exact h.fewer.append_right _
  · rw [List.append_assoc] at hg hnodup
    rw [List.append_assoc]
    exact h.run g (fs ++ rest) hg hnodup

/-- Entries in front of those that are edited stay. -/
theorem append_left (h : Rewrites x es es' a count) (fs : List (Nat × GraphNode)) :
    Rewrites x (fs ++ es) (fs ++ es') a count := by
  have swap (as bs cs : List (Nat × GraphNode)) : (as ++ bs ++ cs).Perm (bs ++ (as ++ cs)) := by
    rw [List.append_assoc]
    exact List.perm_append_comm_assoc as bs cs
  refine ⟨?_, fun g rest hg hnodup => ?_⟩
  · rw [List.map_append, List.map_append]
    exact h.fewer.append_left _
  · obtain ⟨g', hrun, hg', hg''⟩ := h.run g (fs ++ rest)
      (fun e he => hg e ((swap fs es rest).mem_iff.mpr he))
      (((swap fs es rest).map Prod.fst).nodup_iff.mp hnodup)
    exact ⟨g', hrun, fun e he => hg' e ((swap fs es' rest).mem_iff.mp he), hg''⟩

/-- Edits of different entries, one after the other. -/
theorem append (hx : Rewrites x es es' a count) (hf : Rewrites (f a) fs fs' b count') :
    Rewrites (x >>= f) (es ++ fs) (es' ++ fs') b (count + count') :=
  (hx.append_right fs).bind (hf.append_left es')

/-- Entries under which others are edited stay. -/
theorem cons (h : Rewrites x es es' a count) (e : Nat × GraphNode) :
    Rewrites x (e :: es) (e :: es') a count :=
  h.append_left [e]

/-- What an edit does may depend on the entries that stand there. -/
theorem get {f : Graph → Edit α} (hf : ∀ g, g.Has es → f g = x)
    (h : Rewrites x es es' a count) : Rewrites (get >>= f) es es' a count := by
  refine ⟨h.fewer, fun g rest hg hnodup => ?_⟩
  rw [StateT.run_bind, StateT.run_get, pure_bind, hf g (has_append.mp hg).1]
  exact h.run g rest hg hnodup

/-- A node becomes a literal, and the entries below it are given up. -/
theorem settle (id : Nat) (e : GraphNode) (es : List (Nat × GraphNode)) (c : Constant) :
    Rewrites (settle id c) ((id, e) :: es) [(id, { e with kind := c.toKind })] () 1 := by
  refine ⟨?_, fun g rest hg hnodup => ⟨g.replace id c.toKind, rfl, ?_, ?_, rfl⟩⟩
  · rw [List.map_cons, List.map_cons]
    exact (List.nil_sublist _).cons_cons id
  · have hnodes : (g.replace id c.toKind).nodes =
        g.nodes.modify id ({ · with kind := c.toKind }) := by
      cases c <;> rfl
    rw [List.cons_append, List.map_cons, List.nodup_cons] at hnodup
    intro e' he'
    rw [hnodes, Array.getElem?_modify]
    rcases List.mem_cons.mp he' with rfl | he'
    · rw [if_pos rfl, hg (id, e) List.mem_cons_self]
      rfl
    · have hmem : e' ∈ es ++ rest := List.mem_append_right es he'
      have hne : id ≠ e'.1 := fun heq => hnodup.1 (List.mem_map.mpr ⟨e', hmem, heq.symm⟩)
      rw [if_neg hne]
      exact hg e' (List.mem_cons_of_mem _ hmem)
  · cases c <;> exact Array.size_modify

/-- Edits of the entries of several nodes in a row. -/
theorem forM {F : Node → Edit Unit} {E E' : Node → List (Nat × GraphNode)} {cnt : Node → Nat}
    {ns : List Node} (h : ∀ c ∈ ns, Rewrites (F c) (E c) (E' c) () (cnt c)) :
    Rewrites (ns.forM F) (ns.flatMap E) (ns.flatMap E') () (ns.map cnt).sum := by
  induction ns with
  | nil => exact .pure () []
  | cons n ns ih =>
    obtain ⟨hn, hns⟩ := List.forall_mem_cons.mp h
    exact hn.append (ih hns)

end Rewrites

/-! ## Folding -/

theorem forM_map_id (F : Node → Edit Unit) (ns : List Node) :
    (ns.map F).forM id = ns.forM F := by
  induction ns with
  | nil => rfl
  | cons n ns ih =>
    rw [List.map_cons]
    exact congrArg (fun y => F n >>= fun _ => y) ih

/-- Fold a node whose children are folded. -/
def foldAt (id : Nat) : Edit Unit := do
  let g ← get
  if let some c := (g.kind id).foldable? g.literal? then settle id c

theorem foldFrom_eq (n : Node) :
    foldFrom n = (do
      if ((← get).literal? n.id).isNone then
        n.children.forM foldFrom
        foldAt n.id) := by
  rw [← forM_map_id]
  exact Node.fold_eq _ n

theorem rewrites_foldAt (n : Node) (parent : Option Nat) :
    Rewrites (foldAt n.id) (entries n parent) (entries n.foldHere.value parent) ()
      n.foldHere.count := by
  have hfoldable {g : Graph} (hg : g.Has (entries n parent)) :
      (g.kind n.id).foldable? g.literal? = n.kind.foldable? Node.literal? := by
    rw [hg.kind, Kind.foldable?_map]
    exact Kind.foldable?_congr fun c hc => (hg.child hc).literal?
  unfold Node.foldHere
  cases hc : n.kind.foldable? Node.literal? with
  | none =>
    refine .get (fun g hg => ?_) (.pure () _)
    rw [hfoldable hg, hc]
  | some c =>
    change Rewrites (foldAt n.id) _ (entries (n.become c) parent) () 1
    rw [entries_eq n, entries_become]
    refine .get (fun g hg => ?_) (.settle n.id ⟨n.kind.map Node.id, parent, n.position⟩ _ c)
    rw [← entries_eq] at hg
    rw [hfoldable hg, hc]

/-- **Folding in a graph is folding of the tree that stands there.** -/
theorem rewrites_foldFrom (n : Node) (parent : Option Nat) :
    Rewrites (foldFrom n) (entries n parent) (entries (MiniJava.foldConstants n).value parent) ()
      (MiniJava.foldConstants n).count := by
  induction n using Node.induction generalizing parent with
  | step n ih =>
    rw [foldFrom_eq]
    cases hliteral : n.literal? with
    | some c =>
      rw [Node.foldConstants_of_literal hliteral]
      refine .get (fun g hg => ?_) (.pure () _)
      rw [hg.literal?, hliteral]
      rfl
    | none =>
      let n' := n.mapChildren fun c => (MiniJava.foldConstants c).value
      have hbelow : Rewrites (n.children.forM foldFrom) (entries n parent) (entries n' parent) ()
          (n.children.map fun c => (MiniJava.foldConstants c).count).sum := by
        rw [entries_eq n, entries_mapChildren n (fun c _ => c.id_foldConstants) parent]
        exact (Rewrites.forM fun c hc => ih c hc (some n.id)).cons _
      have hvalue : (MiniJava.foldConstants n).value = n'.foldHere.value := Node.value_rewrite n
      have hcount : (MiniJava.foldConstants n).count =
          (n.children.map fun c => (MiniJava.foldConstants c).count).sum + n'.foldHere.count :=
        Node.count_rewrite n
      rw [hvalue, hcount]
      refine .get (fun g hg => ?_) (hbelow.bind (f := fun _ => foldAt n.id) (rewrites_foldAt n' _))
      rw [hg.literal?, hliteral]
      rfl

/-! ## Propagation -/

theorem substituteFrom_of_compound (k : Known) {n : Node} (h : n.label.isCompound = true) :
    substituteFrom k n = n.children.forM (substituteFrom k) := by
  rw [← forM_map_id]
  obtain ⟨i, p, kind⟩ := n
  cases kind with
  | binary | unary | newArray | arrayLit | arrayAccess | arrayLength | call | paren =>
    exact Node.fold_eq _ _
  | _ => cases h

theorem substituteFrom_of_not_compound (k : Known) {n : Node} (h : n.label.isCompound = false)
    (hname : n.label ≠ .varRef) : substituteFrom k n = pure () := by
  obtain ⟨i, p, kind⟩ := n
  cases kind with
  | varRef => exact absurd rfl hname
  | binary | unary | newArray | arrayLit | arrayAccess | arrayLength | call | paren => cases h
  | _ => exact Node.fold_eq _ _

theorem substituteFrom_varRef (k : Known) (i : Nat) (p : Position) (name : String) :
    substituteFrom k ⟨i, p, .varRef name⟩ = (do
      if ((← get).literal? i).isNone then
        if let some c := k.get? name then settle i c) :=
  Node.fold_eq _ _

/-- **Substitution in a graph is substitution in the tree that stands there.** -/
theorem rewrites_substituteFrom (k : Known) (n : Node) (parent : Option Nat) :
    Rewrites (substituteFrom k n) (entries n parent) (entries (n.substitute k).value parent) ()
      (n.substitute k).count := by
  induction n using Node.induction generalizing parent with
  | step n ih =>
    by_cases hname : n.label = .varRef
    · obtain ⟨i, p, kind⟩ := n
      cases kind with
      | varRef name =>
        rw [substituteFrom_varRef]
        have hliteral {g : Graph} (hg : g.Has (entries ⟨i, p, .varRef name⟩ parent)) :
            (g.literal? i).isNone = true := by
          have h := hg.literal?
          rw [h]
          rfl
        unfold Node.substitute
        cases k.get? name with
        | none =>
          refine .get (fun g hg => ?_) (.pure () _)
          rw [if_pos (hliteral hg)]
        | some c =>
          change Rewrites _ _ (entries (Node.become ⟨i, p, .varRef name⟩ c) parent) () 1
          rw [entries_eq ⟨i, p, .varRef name⟩, entries_become]
          refine .get (fun g hg => ?_) (.settle i ⟨.varRef name, parent, p⟩ [] c)
          rw [← entries_eq ⟨i, p, .varRef name⟩] at hg
          rw [if_pos (hliteral hg)]
      | _ => cases hname
    · cases hcompound : n.label.isCompound with
      | false =>
        rw [substituteFrom_of_not_compound k hcompound hname,
          Node.substitute_of_not_compound k hcompound hname]
        exact .pure () _
      | true =>
        obtain ⟨hvalue, hcount⟩ := Node.substitute_of_compound k hcompound
        rw [substituteFrom_of_compound k hcompound, hvalue, hcount, entries_eq n,
          entries_mapChildren n (fun c _ => c.id_substitute k) parent]
        exact (Rewrites.forM fun c hc => ih c hc (some n.id)).cons _

/-- Edits below a node whose children keep their numbers. -/
theorem Rewrites.under {n n' : Node} (parent : Option Nat)
    (hn : n'.id = n.id ∧ n'.position = n.position ∧ n'.kind.map Node.id = n.kind.map Node.id)
    (h : Rewrites x (n.children.flatMap fun c => entries c (some n.id))
      (n'.children.flatMap fun c => entries c (some n.id)) a count) :
    Rewrites x (entries n parent) (entries n' parent) a count := by
  obtain ⟨hid, hposition, hkind⟩ := hn
  rw [entries_eq n, entries_eq n', hid, hposition, hkind]
  exact h.cons _

/-- The entries of several nodes with one parent. -/
def entriesAll (ns : List Node) (parent : Nat) : List (Nat × GraphNode) :=
  ns.flatMap fun c => entries c (some parent)

theorem rewrites_propagateThrough (tracked : List String) (ns : List Node) (parent : Nat)
    (h : ∀ n ∈ ns, ∀ k, Rewrites (propagateFrom tracked k n) (entries n (some parent))
      (entries (n.propagate tracked k).value.1 (some parent)) (n.propagate tracked k).value.2
        (n.propagate tracked k).count) (k : Known) :
    Rewrites (propagateThrough tracked k ns) (entriesAll ns parent)
      (entriesAll (propagateAll tracked k ns).value.1 parent) (propagateAll tracked k ns).value.2
        (propagateAll tracked k ns).count := by
  induction ns generalizing k with
  | nil => exact .pure k []
  | cons n ns ih =>
    obtain ⟨hn, hns⟩ := List.forall_mem_cons.mp h
    exact (hn k).append (ih hns (n.propagate tracked k).value.2)

/-- **Propagation through a statement in a graph is propagation through the tree that stands
there**, and the same is known behind it. -/
theorem rewrites_propagateFrom (tracked : List String) (n : Node) (k : Known)
    (parent : Option Nat) :
    Rewrites (propagateFrom tracked k n) (entries n parent)
      (entries (n.propagate tracked k).value.1 parent) (n.propagate tracked k).value.2
        (n.propagate tracked k).count := by
  induction n using Node.induction generalizing k parent with
  | step n ih =>
    obtain ⟨i, p, kind⟩ := n
    have expr (k : Known) (e : Node) := rewrites_substituteFrom k e (some i)
    have done (k : Known) := Rewrites.pure k ([] : List (Nat × GraphNode))
    cases kind with
    | assign target value =>
      refine Rewrites.under parent ⟨rfl, rfl, ?_⟩ ?_
      · exact congrArg (Kind.assign target) (value.id_substitute k)
      · refine ((expr k value).append_right []).bind (.get (fun g hg => ?_) (.pure _ _))
        have hliteral := (has_append.mp hg).1.literal?
        rw [Node.id_substitute] at hliteral
        rw [hliteral]
        rfl
    | arrayAssign target index value =>
      refine Rewrites.under parent ⟨rfl, rfl, ?_⟩ ?_
      · exact congrArg₂ (Kind.arrayAssign target) (index.id_substitute k) (value.id_substitute k)
      · exact (expr k index).append ((expr k value).append (done k))
    | returning value =>
      cases value with
      | none => exact .pure k _
      | some value =>
        refine Rewrites.under parent ⟨rfl, rfl, ?_⟩ ?_
        · exact congrArg (fun id => Kind.returning (some id)) (value.id_substitute k)
        · exact (expr k value).append (done k)
    | exprStmt e =>
      refine Rewrites.under parent ⟨rfl, rfl, ?_⟩ ?_
      · exact congrArg Kind.exprStmt (e.id_substitute k)
      · exact (expr k e).append (done k)
    | ifElse c t e =>
      have hthen := ih t mem_second k (some i)
      cases e with
      | none =>
        refine Rewrites.under parent ⟨rfl, rfl, ?_⟩ ?_
        · exact congrArg₂ (Kind.ifElse · · none) (c.id_substitute k) (t.id_propagate tracked k)
        · exact (expr k c).append (hthen.append (done _))
      | some e =>
        have helse := ih e mem_third k
          (some i)
        refine Rewrites.under parent ⟨rfl, rfl, ?_⟩ ?_
        · simp [Node.propagate, Kind.map, Node.id_substitute, Node.id_propagate, -bind_pure_comp]
        · exact (expr k c).append (hthen.append (helse.append (done _)))
    | whileLoop c body =>
      have hbody := ih body mem_second
        (k.eraseAll body.assignedNames) (some i)
      refine Rewrites.under parent ⟨rfl, rfl, ?_⟩ ?_
      · exact congrArg₂ Kind.whileLoop (c.id_substitute _) (body.id_propagate tracked _)
      · exact (expr _ c).append (hbody.append (done _))
    | block statements =>
      refine Rewrites.under parent ⟨rfl, rfl, ?_⟩ ?_
      · exact congrArg Kind.block (map_id_propagateAll tracked statements k)
      · exact rewrites_propagateThrough tracked statements i (fun n hn k => ih n hn k (some i)) k
    | _ => exact .pure k _

/-! ## Methods -/

theorem rewrites_propagateIn (t : SymbolTable) (n : Node) (parent : Option Nat) :
    Rewrites (propagateIn t n) (entries n parent) (entries (propagateMethod t n).value parent) ()
      (propagateMethod t n).count := by
  obtain ⟨i, p, kind⟩ := n
  cases kind with
  | methodDecl head params locals body =>
    have hbody := rewrites_propagateThrough (trackedNames t head) body i
      (fun n _ k => rewrites_propagateFrom _ n k (some i)) {}
    refine Rewrites.under parent ⟨rfl, rfl, ?_⟩ ?_
    · exact congrArg (Kind.methodDecl head _ _) (map_id_propagateAll _ body {})
    · change Rewrites _ ((params ++ locals ++ body).flatMap _)
        ((params ++ locals ++ _).flatMap _) () _
      simp only [List.flatMap_append]
      exact (hbody.append_left _).bind (.pure () _)
  | _ => exact .pure () _

theorem rewrites_propagateItems (t : SymbolTable) (items : List Node) (parent : Nat) :
    Rewrites ((methodsAmong items).forM (propagateIn t)) (entriesAll items parent)
      (entriesAll (propagateItems t items).value parent) () (propagateItems t items).count := by
  induction items with
  | nil => exact .pure () []
  | cons n ns ih =>
    obtain ⟨i, p, kind⟩ := n
    cases kind with
    | classDecl name superclass fields methods =>
      have hmethods := Rewrites.forM fun m (_ : m ∈ methods) => rewrites_propagateIn t m (some i)
      have hvalue := Counted.value_mapM (propagateMethod t) methods
      refine Rewrites.append_right ?_ _
      refine Rewrites.under (some parent)
        ⟨rfl, rfl, congrArg (Kind.classDecl name superclass _) ?_⟩ ?_
      · rw [hvalue, List.map_map]
        exact List.map_congr_left fun m _ => m.id_propagateMethod t
      · change Rewrites _ ((fields ++ methods).flatMap _)
          ((fields ++ (methods.mapM (propagateMethod t)).value).flatMap _) ()
          ((methods.mapM (propagateMethod t)).count + 0)
        rw [hvalue, Counted.count_mapM]
        simp only [List.flatMap_append, List.flatMap_map]
        exact hmethods.append_left _
    | _ => exact ih.append_left _

/-- **A pass of propagation in a graph is a pass on the tree that stands there.** -/
theorem rewrites_propagateConstants (t : SymbolTable) (n : Node) (parent : Option Nat) :
    Rewrites (n.methods.forM (propagateIn t)) (entries n parent)
      (entries (MiniJava.propagateConstants t n).value parent) ()
        (MiniJava.propagateConstants t n).count := by
  obtain ⟨i, p, kind⟩ := n
  cases kind with
  | program items =>
    refine Rewrites.under parent ⟨rfl, rfl, congrArg Kind.program ?_⟩ ?_
    · exact map_id_propagateItems t items
    · exact rewrites_propagateItems t items i
  | _ => exact .pure () _

end Graph

end MiniJava
