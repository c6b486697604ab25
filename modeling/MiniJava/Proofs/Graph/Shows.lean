import MiniJava.Proofs.Graph.Building

/-!
# Graphs that show a tree

A graph `Shows` a tree if its table has the entries of the tree and they have different numbers.
Then a pass on the graph replaces as many nodes as the pass on the tree does, and the new graph shows
the new tree (`Shows.foldConstants`, `Shows.propagateConstants`). A graph has the tree that it shows
(`Shows.toTree`). The graph of a tree that has been read shows it (`shows_ofTree`), and its table
lists the nodes by their numbers (`map_nodes_ofTree`).
-/

namespace MiniJava

namespace Graph

variable {g : Graph} {n : Node} {parent : Option Nat} {count : Nat}

/-! ## Trees that are shown -/

/-- The table has the entries of the tree, and the nodes of the tree have different numbers. -/
structure Shows (g : Graph) (n : Node) : Prop where
  root : g.root = n.id
  has : g.Has (entries n none)
  nodup : (n.preorder.map Node.id).Nodup

theorem size_lt_of_mem_children {n c : Node} (hc : c ∈ n.children) : c.size < n.size := by
  have hle := List.single_le_sum (fun x _ => Nat.zero_le x) _
    (List.mem_map_of_mem (f := Node.size) hc)
  have hsize := n.size_eq
  omega

/-- So far down as a tree goes, its nodes are seen. -/
theorem unfoldTo_eq {depth : Nat} (h : g.Has (entries n parent)) (hdepth : n.size ≤ depth) :
    g.unfoldTo depth n.id = n := by
  induction n using Node.induction generalizing depth parent with
  | step n ih =>
    cases depth with
    | zero =>
      rw [Node.size_eq] at hdepth
      exact absurd hdepth (Nat.not_succ_le_zero _)
    | succ depth =>
      unfold unfoldTo
      rw [h.kind, h.position, Kind.map_map, Kind.map_id_of_forall]
      · cases n
        rfl
      · intro c hc
        have hlt := size_lt_of_mem_children hc
        exact ih c hc (h.child hc) (by omega)

namespace Shows

/-- A tree that is shown has no more nodes than there are entries. -/
theorem size_le (h : g.Shows n) : n.size ≤ g.nodes.size := by
  have hsub : n.preorder.map Node.id ⊆ List.range g.nodes.size := by
    intro id hid
    rw [← map_fst_entries n none] at hid
    obtain ⟨e, he, rfl⟩ := List.mem_map.mp hid
    rw [List.mem_range]
    exact (Array.getElem?_eq_some_iff.mp (h.has e he)).1
  have hle := (h.nodup.subperm hsub).length_le
  rwa [List.length_map, List.length_range, Node.card_preorder] at hle

/-- **A graph has the tree that it shows.** -/
theorem toTree (h : g.Shows n) : g.toTree = n := by
  unfold Graph.toTree
  rw [h.root]
  exact unfoldTo_eq h.has h.size_le

/-- After an edit of the tree that was shown, the new tree is shown. -/
theorem run {x : Edit Unit} {n' : Node} (h : g.Shows n) (hid : n'.id = n.id)
    (hx : Rewrites x (entries n none) (entries n' none) () count) :
    ∃ g', x.run g = .counting ((), g') count ∧ g'.Shows n' := by
  have hnodup : ((entries n none ++ []).map Prod.fst).Nodup := by
    rw [List.append_nil, map_fst_entries]
    exact h.nodup
  obtain ⟨g', hrun, hg', -, hroot⟩ := hx.run g [] (List.append_nil _ ▸ h.has) hnodup
  rw [List.append_nil] at hg'
  refine ⟨g', hrun, hroot.trans (h.root.trans hid.symm), hg', ?_⟩
  have hfewer := hx.fewer
  rw [map_fst_entries, map_fst_entries] at hfewer
  exact h.nodup.sublist hfewer

/-- **Folding in a graph folds the tree that it shows.** -/
theorem foldConstants (h : g.Shows n) :
    (g.foldConstants).count = (MiniJava.foldConstants n).count ∧
      (g.foldConstants).value.Shows (MiniJava.foldConstants n).value := by
  obtain ⟨g', hrun, hg'⟩ := h.run n.id_foldConstants (rewrites_foldFrom n none)
  unfold Graph.foldConstants
  rw [h.toTree, hrun]
  exact ⟨rfl, hg'⟩

/-- **Propagation in a graph propagates in the tree that it shows.** -/
theorem propagateConstants (t : SymbolTable) (h : g.Shows n) :
    (g.propagateConstants t).count = (MiniJava.propagateConstants t n).count ∧
      (g.propagateConstants t).value.Shows (MiniJava.propagateConstants t n).value := by
  obtain ⟨g', hrun, hg'⟩ := h.run (n.id_propagateConstants t) (rewrites_propagateConstants t n none)
  unfold Graph.propagateConstants
  rw [h.toTree, hrun]
  exact ⟨rfl, hg'⟩

end Shows

/-! ## The graph of a tree -/

/-- **The graph of a tree that has been read shows the tree.** -/
theorem shows_ofTree {raw : RawNode} (h : Node.ofRaw? raw = .ok n) : (ofTree n).Shows n :=
  ⟨rfl, has_entries_ofTree h, Node.nodup_ids_of_ofRaw? h⟩

/-- The entries of a tree are its cells. -/
theorem map_entries (n : Node) (parent : Option Nat) :
    (entries n parent).map (fun e => Cell.mk e.1 e.2.kind.name e.2.position) =
      n.preorder.map Node.cell := by
  induction n using Node.induction generalizing parent with
  | step n ih =>
    rw [entries_eq, Node.preorder_eq, List.map_cons, List.map_cons, List.map_flatMap,
      List.map_flatMap, List.flatMap_congr fun c hc => ih c hc (some n.id)]
    have hname : (n.kind.map Node.id).name = n.kind.name :=
      congrArg Label.name (Kind.label_map Node.id n.kind)
    rw [hname]
    rfl

/-- The table of a tree that has been read lists its cells by their numbers. -/
theorem map_nodes_ofTree {raw : RawNode} {raws : List RawNode} {root : Node}
    (h : Node.ofRaw? raw = .ok root) (hcells : root.cells = ↑(RawNode.numbered 0 raws)) :
    (ofTree root).nodes.toList.map (fun n => (n.kind.name, n.position)) =
      raws.map fun r => (r.kind, r.position) := by
  have hshows := shows_ofTree h
  have hperm : (root.preorder.map Node.cell).Perm (RawNode.numbered 0 raws) :=
    Multiset.coe_eq_coe.mp hcells
  refine List.ext_getElem ?_ fun i _ hi => ?_
  · rw [List.length_map, List.length_map, Array.length_toList, size_ofTree h,
      Node.size_eq_length hcells]
  · rw [List.length_map] at hi
    have hmem : Cell.mk i raws[i].kind raws[i].position ∈ RawNode.numbered 0 raws :=
      List.mem_map.mpr ⟨(raws[i], i), List.mk_mem_zipIdx_iff_getElem?.mpr (by simp), rfl⟩
    rw [← hperm.mem_iff, ← map_entries root none] at hmem
    obtain ⟨e, he, hcell⟩ := List.mem_map.mp hmem
    obtain ⟨rfl, hkind, hposition⟩ := Cell.mk.inj hcell
    have hget := (Array.getElem?_eq_some_iff.mp (hshows.has e he)).2
    rw [List.getElem_map, List.getElem_map, Array.getElem_toList, hget, hkind, hposition]

/-! ## Optimizing -/

/-- Passes that count the same and stay in step do so in turns as well. -/
theorem alternate_of_related {α β : Type} {propagate fold : α → Counted α}
    {propagate' fold' : β → Counted β} {R : α → β → Prop}
    (hpropagate : ∀ a b, R a b →
      (propagate a).count = (propagate' b).count ∧ R (propagate a).value (propagate' b).value)
    (hfold : ∀ a b, R a b → (fold a).count = (fold' b).count ∧ R (fold a).value (fold' b).value)
    {left : Nat} {stats stats' : OptimizationStats} {a a' : α} {b : β} (hab : R a b)
    (h : alternate propagate fold left stats a = .ok (a', stats')) :
    ∃ b', alternate propagate' fold' left stats b = .ok (b', stats') ∧ R a' b' := by
  induction left generalizing stats a b with
  | zero => cases h
  | succ left ih =>
    obtain ⟨hcount, hvalue⟩ := hpropagate a b hab
    obtain ⟨hcount', hvalue'⟩ := hfold _ _ hvalue
    have hisChanged : ((propagate a).isChanged || (fold (propagate a).value).isChanged) =
        ((propagate' b).isChanged || (fold' (propagate' b).value).isChanged) := by
      simp only [Counted.isChanged_eq, hcount, hcount']
    unfold alternate at h ⊢
    simp only [hisChanged, hcount, hcount'] at h ⊢
    split at h <;> rename_i hchanged
    · simp only [if_pos hchanged]
      exact ih hvalue' h
    · simp only [if_neg hchanged]
      cases h
      exact ⟨_, rfl, hvalue'⟩

/-- **Optimizing the graph of a tree that has been read optimizes the tree.** -/
theorem shows_of_optimize (t : SymbolTable) {raw : RawNode} {root : Node}
    (h : Node.ofRaw? raw = .ok root) {g : Graph} {stats : OptimizationStats}
    (hoptimize : (ofTree root).optimize t = .ok (g, stats)) :
    ∃ root', MiniJava.optimize t root = .ok (root', stats) ∧ g.Shows root' := by
  unfold Graph.optimize at hoptimize
  rw [size_ofTree h] at hoptimize
  exact alternate_of_related (fun _ _ h => h.propagateConstants t) (fun _ _ h => h.foldConstants)
    (shows_ofTree h) hoptimize

end Graph

end MiniJava
