import Mathlib.Logic.Relation
import MiniJava.Proofs.Graph.Shows

/-!
# Graphs that are trees

`Graph.IsTree` says of a table that it holds one tree and nothing else: the root comes last,
children come before their parents, every other node stands in one list of children, once, and its
link leads to the node whose list this is. The table of a tree that has been read is of this kind
(`isTree_ofTree`).

Where children come before their parents, the walk with a stack goes through the tree that is seen
from a node in preorder (`descendants_eq_preorder`), and a node is seen from another one if there is
a way down to it (`mem_descendants`).
-/

namespace MiniJava

namespace Graph

variable {g : Graph} {n m c : Node} {parent : Option Nat}

/-- What stands in the table of a tree stands there for each of its subtrees. -/
theorem Has.of_mem_preorder (h : g.Has (entries n parent)) (hm : m ∈ n.preorder) :
    ∃ parent', g.Has (entries m parent') := by
  induction n using Node.induction generalizing parent with
  | step n ih =>
    rcases Node.mem_preorder.mp hm with rfl | ⟨c, hc, hm⟩
    · exact ⟨parent, h⟩
    · exact ih c hc (h.child hc) hm

theorem Has.parent? (h : g.Has (entries n parent)) : g.parent? n.id = parent := by
  rw [entries_eq] at h
  unfold Graph.parent?
  rw [h _ List.mem_cons_self]
  rfl

theorem Has.children (h : g.Has (entries n parent)) : g.children n.id = n.children.map Node.id := by
  rw [Graph.children, h.kind]
  exact Kind.children_map _ _

/-- A number that is not in the table has no children. -/
theorem children_of_size_le {id : Nat} (h : g.nodes.size ≤ id) : g.children id = [] := by
  unfold children kind
  rw [Array.getElem?_eq_none h]
  rfl

/-! ## What is seen from a node -/

/-- Children come before their parents in the table. -/
def Descends (g : Graph) : Prop := ∀ id, ∀ c ∈ g.children id, c < id

namespace Descends

variable {id : Nat}

/-- A tree has been seen to its end before the depth is used up. -/
theorem unfoldTo_eq (h : g.Descends) {d d' : Nat} (hd : id < d) (hd' : id < d') :
    g.unfoldTo d id = g.unfoldTo d' id := by
  induction id using Nat.strongRecOn generalizing d d' with
  | ind id ih =>
    obtain ⟨d, rfl⟩ := Nat.exists_eq_add_one_of_ne_zero (Nat.ne_zero_of_lt hd)
    obtain ⟨d', rfl⟩ := Nat.exists_eq_add_one_of_ne_zero (Nat.ne_zero_of_lt hd')
    unfold unfoldTo
    rw [Kind.map_congr fun c hc => ih c (h id c hc)
      (Nat.lt_of_lt_of_le (h id c hc) (Nat.le_of_lt_succ hd))
      (Nat.lt_of_lt_of_le (h id c hc) (Nat.le_of_lt_succ hd'))]

/-- The preorder of the tree that is seen from a node goes on with those of its children. -/
theorem preorder_unfold (h : g.Descends) (hid : id < g.nodes.size) :
    (g.unfold id).preorder.map Node.id =
      id :: (g.children id).flatMap fun c => (g.unfold c).preorder.map Node.id := by
  unfold unfold
  obtain ⟨d, hsize⟩ := Nat.exists_eq_add_one_of_ne_zero (Nat.ne_zero_of_lt hid)
  rw [hsize] at hid ⊢
  conv_lhs => unfold unfoldTo
  rw [Node.preorder_eq, List.map_cons, List.map_flatMap, Node.children, Kind.children_map,
    List.flatMap_map]
  refine congrArg (id :: ·) (List.flatMap_congr fun c hc => ?_)
  have hlt := h id c hc
  have hsame : g.unfoldTo d c = g.unfoldTo (d + 1) c := h.unfoldTo_eq (by omega) (by omega)
  rw [hsame]

/-- With steps enough the walk lists what is seen from the numbers on the stack, one after the
other. -/
theorem walk_eq (h : g.Descends) {stack : List Nat} (hstack : ∀ id ∈ stack, id < g.nodes.size)
    {steps : Nat}
    (hsteps : (stack.flatMap fun id => (g.unfold id).preorder.map Node.id).length ≤ steps) :
    g.walk steps stack = stack.flatMap fun id => (g.unfold id).preorder.map Node.id := by
  induction steps generalizing stack with
  | zero => exact (List.eq_nil_of_length_eq_zero (Nat.le_zero.mp hsteps)).symm
  | succ steps ih =>
    cases stack with
    | nil => rfl
    | cons id stack =>
      obtain ⟨hid, hstack⟩ := List.forall_mem_cons.mp hstack
      -- The number is replaced by its children, which are seen behind it.
      rw [List.flatMap_cons, h.preorder_unfold hid, List.cons_append, ← List.flatMap_append]
        at hsteps ⊢
      refine congrArg (id :: ·) (ih (fun c hc => ?_) (Nat.le_of_succ_le_succ hsteps))
      rcases List.mem_append.mp hc with hc | hc
      · exact Nat.lt_trans (h id c hc) hid
      · exact hstack c hc

/-- **The walk with a stack goes through the tree that is seen in preorder.** -/
theorem descendants_eq_preorder (h : g.Descends) (hid : id < g.nodes.size) :
    g.descendants id = (g.unfold id).preorder.map Node.id := by
  have hone : ([id].flatMap fun id => (g.unfold id).preorder.map Node.id) =
      (g.unfold id).preorder.map Node.id := List.flatMap_singleton _ _
  refine (h.walk_eq (fun i hi => List.mem_singleton.mp hi ▸ hid) ?_).trans hone
  rw [hone, List.length_map, Node.card_preorder]

/-- **The numbers seen from a node are listed in preorder.** -/
theorem descendants_eq (h : g.Descends) (hid : id < g.nodes.size) :
    g.descendants id = id :: (g.children id).flatMap g.descendants := by
  rw [h.descendants_eq_preorder hid, h.preorder_unfold hid]
  refine congrArg (id :: ·) (List.flatMap_congr fun c hc => ?_)
  exact (h.descendants_eq_preorder (Nat.lt_trans (h id c hc) hid)).symm

/-- **A number is seen from another one if a way leads down to it.** -/
theorem mem_descendants (h : g.Descends) (hid : id < g.nodes.size) {x : Nat} :
    x ∈ g.descendants id ↔ Relation.ReflTransGen (fun p c => c ∈ g.children p) id x := by
  induction id using Nat.strongRecOn with
  | ind id ih =>
    rw [h.descendants_eq hid, List.mem_cons, List.mem_flatMap, Relation.ReflTransGen.cases_head_iff,
      eq_comm]
    refine or_congr_right (exists_congr fun c => and_congr_right fun hc => ?_)
    exact ih c (h id c hc) (Nat.lt_trans (h id c hc) hid)

end Descends

/-- From the root the nodes of the tree that is shown are seen. -/
theorem Shows.descendants_root (hshows : g.Shows n) (h : g.Descends) :
    g.descendants g.root = n.preorder.map Node.id := by
  have hentry := hshows.has _ (entries_eq n none ▸ List.mem_cons_self)
  have hroot : g.root < g.nodes.size := hshows.root ▸ (Array.getElem?_eq_some_iff.mp hentry).1
  rw [h.descendants_eq_preorder hroot]
  exact congrArg (fun n => n.preorder.map Node.id) hshows.toTree

/-! ## Trees -/

/-- The table holds one tree and nothing else. -/
structure IsTree (g : Graph) : Prop where
  /-- The root has the last number. -/
  root_last : g.root + 1 = g.nodes.size
  root_parent : g.parent? g.root = none
  /-- Children have smaller numbers than their parents. -/
  descends : g.Descends
  /-- Every other node stands in one list of children, once, and its link leads there. -/
  child_once : ∀ c < g.nodes.size, c ≠ g.root → ∃ p < g.nodes.size, g.parent? c = some p ∧
    ∀ q, (g.children q).count c = if q = p then 1 else 0
  /-- From the root each number is seen once. -/
  visits : (g.descendants g.root).Perm (List.range g.nodes.size)

namespace IsTree

variable {c p : Nat}

theorem root_lt (h : g.IsTree) : g.root < g.nodes.size := by
  have := h.root_last
  omega

/-- The link of a child leads to its parent. -/
theorem parent?_of_mem_children (h : g.IsTree) (hc : c ∈ g.children p) : g.parent? c = some p := by
  have hp : p < g.nodes.size := by
    by_contra hp
    rw [children_of_size_le (Nat.le_of_not_lt hp)] at hc
    cases hc
  have hlt := h.descends p c hc
  have hroot := h.root_last
  obtain ⟨p', -, hparent, hcount⟩ := h.child_once c (by omega) (by omega)
  have hone := hcount p
  split at hone
  · rename_i heq
    rw [hparent, heq]
  · exact absurd hc (List.count_eq_zero.mp hone)

/-- No node has two parents. -/
theorem eq_of_mem_children (h : g.IsTree) {q : Nat} (hp : c ∈ g.children p)
    (hq : c ∈ g.children q) : p = q := by
  have hparent := h.parent?_of_mem_children hp
  rw [h.parent?_of_mem_children hq] at hparent
  exact (Option.some.inj hparent).symm

end IsTree

/-- **The table of a tree that has been read holds that tree and nothing else.** -/
theorem isTree_ofTree {raw : RawNode} {root : Node} (h : Node.ofRaw? raw = .ok root) :
    (ofTree root).IsTree := by
  have hshows := shows_ofTree h
  have hsize := size_ofTree h
  have hstands {m : Node} (hm : m ∈ root.preorder) := hshows.has.of_mem_preorder hm
  have hdescends : (ofTree root).Descends := by
    intro id c hc
    obtain hid | hid := Nat.lt_or_ge id root.size
    · obtain ⟨m, hm, rfl⟩ := Node.exists_id_eq_of_ofRaw? h hid
      obtain ⟨parent, hentries⟩ := hstands hm
      rw [hentries.children] at hc
      obtain ⟨d, hd, rfl⟩ := List.mem_map.mp hc
      exact Node.ascending_of_ofRaw? h m hm d hd
    · rw [children_of_size_le (hsize ▸ hid)] at hc
      cases hc
  refine ⟨hsize ▸ Node.id_of_ofRaw? h, hshows.has.parent?, hdescends, fun c hc hroot => ?_, ?_⟩
  · obtain ⟨m, hm, rfl⟩ := Node.exists_id_eq_of_ofRaw? h (hsize ▸ hc)
    obtain rfl | ⟨q, hq, hmq⟩ := Node.eq_or_exists_parent hm
    · exact absurd rfl hroot
    obtain ⟨parent, hentries⟩ := hstands hq
    have hlt := Node.id_lt_size_of_ofRaw? h hq
    refine ⟨q.id, hsize ▸ hlt, (hentries.child hmq).parent?, fun id => ?_⟩
    obtain hid | hid := Nat.lt_or_ge id root.size
    · obtain ⟨x, hx, rfl⟩ := Node.exists_id_eq_of_ofRaw? h hid
      obtain ⟨parent', hentries'⟩ := hstands hx
      rw [hentries'.children]
      exact Node.count_children hshows.nodup hq hmq hx
    · have hne := Nat.ne_of_gt (Nat.lt_of_lt_of_le hlt hid)
      rw [children_of_size_le (hsize ▸ hid), if_neg hne]
      rfl
  · rw [hshows.descendants_root hdescends, hsize]
    exact Node.perm_ids_of_ofRaw? h

end Graph

end MiniJava
