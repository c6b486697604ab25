import MiniJava.Proofs.Graph.Trees
import MiniJava.Proofs.Optimize.Schedule

/-!
# What passes do to a table

A pass turns nodes into literals and does nothing else (`Settled`): positions and links stay, also
those of nodes that are not seen any more. Where the table was a tree, its upper part therefore
stays a tree. What is lost are the nodes below those that became literals, and no others
(`Settled.isReachable_iff`).

The main theorem is `isTree_and_pruned`.
-/

namespace MiniJava

namespace Graph

/-! ## Nodes that become literals -/

/-- The second table is the first, in which some nodes may have become literals. -/
structure Settled (g g' : Graph) : Prop where
  size : g'.nodes.size = g.nodes.size
  root : g'.root = g.root
  position : ∀ id, g'.position id = g.position id
  parent : ∀ id, g'.parent? id = g.parent? id
  kind : ∀ id, g'.kind id = g.kind id ∨ (g'.literal? id).isSome = true

namespace Settled

variable {g g' g'' : Graph}

protected theorem refl (g : Graph) : g.Settled g :=
  ⟨rfl, rfl, fun _ => rfl, fun _ => rfl, fun _ => .inl rfl⟩

protected theorem trans (h : g.Settled g') (h' : g'.Settled g'') : g.Settled g'' where
  size := h'.size.trans h.size
  root := h'.root.trans h.root
  position id := (h'.position id).trans (h.position id)
  parent id := (h'.parent id).trans (h.parent id)
  kind id := by
    rcases h'.kind id with heq | hliteral
    · unfold literal?
      rw [heq]
      exact h.kind id
    · exact .inr hliteral

/-- One node becomes a literal. -/
theorem replace (g : Graph) (id : Nat) (c : Constant) : g.Settled (g.replace id c.toKind) := by
  have hnodes : (g.replace id c.toKind).nodes =
      g.nodes.modify id ({ · with kind := c.toKind }) := by
    cases c <;> rfl
  have hget (j : Nat) : (g.replace id c.toKind).nodes[j]? =
      if id = j then g.nodes[j]?.map ({ · with kind := c.toKind }) else g.nodes[j]? := by
    rw [hnodes, Array.getElem?_modify]
  refine ⟨?_, rfl, fun j => ?_, fun j => ?_, fun j => ?_⟩
  · rw [hnodes, Array.size_modify]
  · unfold Graph.position
    rw [hget]
    split
    · rw [Option.map_map]
      rfl
    · rfl
  · unfold Graph.parent?
    rw [hget]
    split
    · rw [Option.bind_map]
      rfl
    · rfl
  · unfold literal? Graph.kind
    rw [hget]
    split
    · cases g.nodes[j]? with
      | none => exact .inl rfl
      | some n =>
        refine .inr ?_
        cases c <;> rfl
    · exact .inl rfl

end Settled

/-! ## Edits -/

/-- Whatever the table, the edit turns nodes into literals and does nothing else. -/
def Edit.Settles {α : Type} (x : Edit α) : Prop := ∀ g : Graph, g.Settled (x.run g).value.2

namespace Edit.Settles

variable {α β : Type} {x : Edit α} {f : α → Edit β}

protected theorem pure (a : α) : Settles (pure a : Edit α) := fun g => .refl g

protected theorem bind (hx : Settles x) (hf : ∀ a, Settles (f a)) : Settles (x >>= f) := by
  intro g
  have h := hx g
  have h' := hf (x.run g).value.1 (x.run g).value.2
  exact h.trans h'

theorem get {f : Graph → Edit β} (hf : ∀ g, Settles (f g)) : Settles (get >>= f) :=
  fun g => hf g g

theorem settle (id : Nat) (c : Constant) : Settles (settle id c) :=
  fun g => .replace g id c

theorem ite {c : Prop} [Decidable c] {y : Edit α} (hx : Settles x) (hy : Settles y) :
    Settles (if c then x else y) := by
  split
  · exact hx
  · exact hy

/-- A literal is put in place of a node if there is one. -/
theorem settle? (id : Nat) (c? : Option Constant) :
    Settles (match c? with
      | some c => Graph.settle id c
      | _ => pure ()) := by
  cases c? with
  | none => exact .pure _
  | some c => exact .settle id c

theorem forM {F : Node → Edit Unit} {ns : List Node} (h : ∀ n ∈ ns, Settles (F n)) :
    Settles (ns.forM F) := by
  induction ns with
  | nil => exact .pure _
  | cons n ns ih =>
    obtain ⟨hn, hns⟩ := List.forall_mem_cons.mp h
    exact hn.bind fun _ => ih hns

end Edit.Settles

open Edit (Settles)

theorem settles_foldFrom (n : Node) : Settles (foldFrom n) := by
  induction n using Node.induction with
  | step n ih =>
    rw [foldFrom_eq]
    refine .get fun g => .ite (.bind (.forM ih) fun _ => .get fun g => ?_) (.pure _)
    exact .settle? n.id _

theorem settles_substituteFrom (k : Known) (n : Node) : Settles (substituteFrom k n) := by
  induction n using Node.induction with
  | step n ih =>
    by_cases hname : n.label = .varRef
    · obtain ⟨i, p, kind⟩ := n
      cases kind with
      | varRef name =>
        rw [substituteFrom_varRef]
        exact .get fun g => .ite (.settle? i _) (.pure _)
      | _ => cases hname
    · cases hcompound : n.label.isCompound with
      | false =>
        rw [substituteFrom_of_not_compound k hcompound hname]
        exact .pure _
      | true =>
        rw [substituteFrom_of_compound k hcompound]
        exact .forM ih

theorem settles_propagateThrough (tracked : List String) {ns : List Node}
    (h : ∀ n ∈ ns, ∀ k, Settles (propagateFrom tracked k n)) (k : Known) :
    Settles (propagateThrough tracked k ns) := by
  induction ns generalizing k with
  | nil => exact .pure _
  | cons n ns ih =>
    obtain ⟨hn, hns⟩ := List.forall_mem_cons.mp h
    exact (hn k).bind fun k => ih hns k

theorem settles_propagateFrom (tracked : List String) (n : Node) (k : Known) :
    Settles (propagateFrom tracked k n) := by
  induction n using Node.induction generalizing k with
  | step n ih =>
    obtain ⟨i, p, kind⟩ := n
    have expr (k : Known) (e : Node) := settles_substituteFrom k e
    cases kind with
    | assign target value => exact (expr k value).bind fun _ => .get fun g => .pure _
    | arrayAssign target index value =>
      exact (expr k index).bind fun _ => (expr k value).bind fun _ => .pure _
    | returning value =>
      cases value with
      | none => exact .pure _
      | some value => exact (expr k value).bind fun _ => .pure _
    | exprStmt e => exact (expr k e).bind fun _ => .pure _
    | ifElse c t e =>
      have hthen := ih t mem_second k
      cases e with
      | none => exact (expr k c).bind fun _ => hthen.bind fun _ => .pure _
      | some e =>
        have helse := ih e mem_third k
        exact (expr k c).bind fun _ => hthen.bind fun _ => helse.bind fun _ => .pure _
    | whileLoop c body =>
      have hbody := ih body mem_second
        (k.eraseAll body.assignedNames)
      exact (expr _ c).bind fun _ => hbody.bind fun _ => .pure _
    | block statements => exact settles_propagateThrough tracked ih k
    | _ => exact .pure _

theorem settles_propagateIn (t : SymbolTable) (n : Node) : Settles (propagateIn t n) := by
  obtain ⟨i, p, kind⟩ := n
  cases kind with
  | methodDecl head params locals body =>
    exact (settles_propagateThrough _ (fun n _ => settles_propagateFrom _ n) {}).bind
      fun _ => .pure _
  | _ => exact .pure _

/-- **A pass turns nodes into literals and does nothing else.** -/
theorem settled_onGraph (t : SymbolTable) (p : Pass) (g : Graph) : g.Settled (p.onGraph t g) := by
  cases p with
  | propagation => exact Settles.forM (fun n _ => settles_propagateIn t n) g
  | folding => exact settles_foldFrom g.toTree g

/-- **Passes in a row turn nodes into literals and do nothing else.** -/
theorem settled_allOnGraph (t : SymbolTable) (ps : List Pass) (g : Graph) :
    g.Settled (Pass.allOnGraph t ps g) := by
  induction ps generalizing g with
  | nil => exact .refl g
  | cons p ps ih => exact (settled_onGraph t p g).trans (ih _)

/-! ## What is still seen -/

/-- There is a way down from one number to another. -/
abbrev Leads (g : Graph) : Nat → Nat → Prop :=
  Relation.ReflTransGen fun p c => c ∈ g.children p

theorem Descends.le_of_leads {g : Graph} (h : g.Descends) {a b : Nat} (hab : g.Leads a b) :
    b ≤ a := by
  induction hab with
  | refl => exact Nat.le_refl a
  | tail _ hc ih => exact Nat.le_trans (h _ _ hc).le ih

namespace Settled

variable {g g' : Graph}

/-- A node that has changed has become a literal, which has no children. -/
theorem children_of_kind_ne (h : g.Settled g') {id : Nat} (hne : g'.kind id ≠ g.kind id) :
    g'.children id = [] := by
  have hliteral := (h.kind id).resolve_left hne
  unfold literal? at hliteral
  unfold children
  cases hkind : g'.kind id <;> rw [hkind] at hliteral <;> first | rfl | cases hliteral

theorem mem_children (h : g.Settled g') {p c : Nat} (hc : c ∈ g'.children p) :
    c ∈ g.children p ∧ g'.kind p = g.kind p := by
  by_cases heq : g'.kind p = g.kind p
  · unfold children at hc ⊢
    rw [heq] at hc
    exact ⟨hc, heq⟩
  · rw [h.children_of_kind_ne heq] at hc
    cases hc

theorem descends (h : g.Settled g') (hg : g.Descends) : g'.Descends :=
  fun id c hc => hg id c (h.mem_children hc).1

theorem isReachable_iff_leads (hg : g.Descends) (hroot : g.root < g.nodes.size) {x : Nat} :
    g.isReachable x = true ↔ g.Leads g.root x := by
  rw [isReachable, List.contains_iff_mem]
  exact hg.mem_descendants hroot

/-- In a tree what is seen after some nodes have become literals is not below any of them. -/
theorem eq_of_leads (h : g.Settled g') (hg : g.IsTree) {x r : Nat} (hx : g'.Leads g.root x)
    (hr : g'.kind r ≠ g.kind r) (hrx : g.Leads r x) : x = r := by
  induction hx with
  | refl =>
    rcases Relation.ReflTransGen.cases_tail hrx with heq | ⟨q, -, hq⟩
    · exact heq
    · have hparent := hg.parent?_of_mem_children hq
      rw [hg.root_parent] at hparent
      cases hparent
  | @tail p x _ hpx ih =>
    obtain ⟨hc, hkind⟩ := h.mem_children hpx
    rcases Relation.ReflTransGen.cases_tail hrx with heq | ⟨q, hrq, hq⟩
    · exact heq
    · -- The way down to a child leads through its only parent.
      obtain rfl := hg.eq_of_mem_children hq hc
      exact absurd (ih hrq ▸ hkind) hr

/-- In a tree what is not below a node that has become a literal is still seen. -/
theorem leads_of_forall (hg : g.IsTree) {x : Nat} (hx : g.Leads g.root x)
    (habove : ∀ r, g'.kind r ≠ g.kind r → g.Leads r x → x = r) : g'.Leads g.root x := by
  induction hx with
  | refl => exact .refl
  | @tail p x _ hc ih =>
    have hlt : x < p := hg.descends p x hc
    refine .tail (ih fun r hr hrp => ?_) ?_
    · have heq := habove r hr (hrp.tail hc)
      have hle := hg.descends.le_of_leads hrp
      omega
    · have hkind : g'.kind p = g.kind p := by
        by_contra hne
        have heq := habove p hne (.single hc)
        omega
      unfold children at hc ⊢
      rwa [hkind]

/-- **What passes make unseen lies below a node that became a literal.** -/
theorem isReachable_iff (h : g.Settled g') (hg : g.IsTree) (x : Nat) :
    g'.isReachable x = true ↔ g.isReachable x = true ∧
      ∀ r, g'.kind r ≠ g.kind r → x ∈ g.descendants r → x = r := by
  have hroot := hg.root_lt
  have hroot' : g'.root < g'.nodes.size := by
    rw [h.root, h.size]
    exact hroot
  rw [isReachable_iff_leads (h.descends hg.descends) hroot', h.root,
    isReachable_iff_leads hg.descends hroot]
  have hbelow {r : Nat} (hr : g'.kind r ≠ g.kind r) : x ∈ g.descendants r ↔ g.Leads r x := by
    refine hg.descends.mem_descendants ?_
    by_contra hsize
    have hsize := Nat.le_of_not_lt hsize
    unfold Graph.kind at hr
    rw [Array.getElem?_eq_none hsize, Array.getElem?_eq_none (h.size ▸ hsize)] at hr
    exact hr rfl
  constructor
  · intro hx
    refine ⟨Relation.ReflTransGen.mono (fun _ _ hc => (h.mem_children hc).1) _ _ hx,
      fun r hr hrx => ?_⟩
    exact h.eq_of_leads hg hx hr ((hbelow hr).mp hrx)
  · rintro ⟨hx, habove⟩
    exact leads_of_forall hg hx fun r hr hrx => habove r hr ((hbelow hr).mpr hrx)

end Settled

/-- The second table is the tree of the first, less what is below some nodes that have become
literals. -/
structure Prunes (g g' : Graph) : Prop where
  size : g'.nodes.size = g.nodes.size
  root : g'.root = g.root
  position : ∀ id, g'.position id = g.position id
  parent : ∀ id, g'.parent? id = g.parent? id
  /-- The links of the children of a node that is still seen lead to that node. -/
  adopted : ∀ id, g'.isReachable id = true → ∀ c ∈ g'.children id, g'.parent? c = some id
  /-- Still seen is what was seen, but for what was properly below a node that has changed. -/
  reachable : ∀ id, g'.isReachable id = true ↔ g.isReachable id = true ∧
    ∀ r, g'.kind r ≠ g.kind r → id ∈ g.descendants r → id = r
  literal : ∀ id, g'.isReachable id = true → g'.kind id ≠ g.kind id →
    (g'.literal? id).isSome = true

theorem Settled.prunes {g g' : Graph} (h : g.Settled g') (hg : g.IsTree) : g.Prunes g' where
  size := h.size
  root := h.root
  position := h.position
  parent := h.parent
  adopted id _ c hc := by
    rw [h.parent]
    exact hg.parent?_of_mem_children (h.mem_children hc).1
  reachable := h.isReachable_iff hg
  literal id _ hne := (h.kind id).resolve_left hne

/-- **Tables of trees stay trees.** The table of a tree that has been read holds that tree and
nothing else, and lists it in preorder. After any passes it has the same numbers, positions and
links, and what is still seen from the root is the tree less what is below the nodes that became
literals. -/
theorem isTree_and_pruned {raw : RawNode} {root : Node} (h : Node.ofRaw? raw = .ok root)
    (t : SymbolTable) (ps : List Pass) :
    (ofTree root).IsTree ∧
      (∀ id < (ofTree root).nodes.size, (ofTree root).descendants id =
        id :: ((ofTree root).children id).flatMap (ofTree root).descendants) ∧
      (ofTree root).Prunes (Pass.allOnGraph t ps (ofTree root)) :=
  have htree := isTree_ofTree h
  ⟨htree, fun _ hid => htree.descends.descendants_eq hid,
    (settled_allOnGraph t ps (ofTree root)).prunes htree⟩

/-- A program in which a variable and then a sum become literals. -/
theorem isTree_and_pruned_sum : ∃ raw root table, Node.ofRaw? raw = .ok root ∧
    SymbolTable.ofTree? root = .ok table ∧
    let g := ofTree root
    let g' := Pass.allOnGraph table [.propagation, .folding] g
    g'.reachable ≠ g.reachable ∧ g.IsTree ∧
      (∀ id < g.nodes.size, g.descendants id = id :: (g.children id).flatMap g.descendants) ∧
      g.Prunes g' := by
  obtain ⟨root, table, h, hfewer⟩ := Accepted.exists_of_any
    "class A{int f(){int a;a=1;return a+1;}}"
    (fun root table => decide ((Pass.allOnGraph table [.propagation, .folding]
      (ofTree root)).reachable ≠ (ofTree root).reachable))
    (by decide +kernel)
  obtain ⟨raw, -, hread⟩ := h.tree
  exact ⟨raw, root, table, hread, h.declared, of_decide_eq_true hfewer,
    isTree_and_pruned hread table [.propagation, .folding]⟩

end Graph

end MiniJava
