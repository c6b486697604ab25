import MiniJava.Proofs.Graph.Rewriting
import MiniJava.Proofs.Tree.Ascending

/-!
# Tables that are built by pushing nodes

`Graph.pushAll` pushes nodes one after the other, and each makes itself the parent of its children.
So a node has the parent that adopted it last (`getElem?_pushAll`). A tree that has been read stands
in the order of its numbers with children before their parents; when its nodes have been pushed in
that order, its entries stand in the table, and nothing else does (`has_entries_ofTree`,
`size_ofTree`).
-/

namespace MiniJava

namespace Graph

/-! ## One node more -/

theorem size_adopt (nodes : Array GraphNode) (parent : Nat) (children : List Nat) :
    (adopt nodes parent children).size = nodes.size := by
  unfold adopt
  induction children generalizing nodes with
  | nil => rfl
  | cons c cs ih => rw [List.foldl_cons, ih, Array.size_modify]

/-- Children get the parent, and all else stays. -/
theorem getElem?_adopt (nodes : Array GraphNode) (parent : Nat) (children : List Nat) (i : Nat) :
    (adopt nodes parent children)[i]? = nodes[i]?.map fun n =>
      if i ∈ children then { n with parent := some parent } else n := by
  unfold adopt
  induction children generalizing nodes with
  | nil => simp
  | cons c cs ih =>
    rw [List.foldl_cons, ih, Array.getElem?_modify]
    by_cases hc : c = i
    · subst hc
      cases nodes[c]? <;> simp
    · simp [hc, Ne.symm hc]

theorem size_push (nodes : Array GraphNode) (kind : Kind Nat) (position : Position) :
    (push nodes kind position).size = nodes.size + 1 := by
  rw [push, Array.size_push, size_adopt]

/-- A node that is pushed comes last, without a parent, and is the parent of its children. -/
theorem getElem?_push (nodes : Array GraphNode) (kind : Kind Nat) (position : Position) (i : Nat) :
    (push nodes kind position)[i]? =
      if i = nodes.size then some ⟨kind, none, position⟩
      else nodes[i]?.map fun n =>
        if i ∈ kind.children then { n with parent := some nodes.size } else n := by
  rw [push, Array.getElem?_push, size_adopt, getElem?_adopt]

/-! ## All nodes of a list -/

/-- The last of the nodes that has the number among its children. -/
def adopter? (ns : List Node) (id : Nat) : Option Nat :=
  (ns.reverse.find? fun n => id ∈ n.children.map Node.id).map Node.id

theorem adopter?_concat (ns : List Node) (n : Node) (id : Nat) :
    adopter? (ns ++ [n]) id =
      if id ∈ n.children.map Node.id then some n.id else adopter? ns id := by
  unfold adopter?
  rw [List.reverse_append, List.reverse_singleton, List.singleton_append, List.find?_cons]
  split <;> simp_all

/-- What is no child of a node has no parent among them. -/
theorem adopter?_eq_none {ns : List Node} {id : Nat}
    (h : ∀ n ∈ ns, ∀ c ∈ n.children, c.id ≠ id) : adopter? ns id = none := by
  unfold adopter?
  rw [Option.map_eq_none_iff, List.find?_eq_none]
  intro n hn hid
  obtain ⟨c, hc, hcid⟩ := List.mem_map.mp (of_decide_eq_true hid)
  exact h n (List.mem_reverse.mp hn) c hc hcid

theorem pushAll_concat (ns : List Node) (n : Node) :
    pushAll (ns ++ [n]) = push (pushAll ns) (n.kind.map Node.id) n.position :=
  List.foldl_concat _ _ _ _

theorem size_pushAll (ns : List Node) : (pushAll ns).size = ns.length := by
  induction ns using List.reverseRecOn with
  | nil => rfl
  | append_singleton ns n ih =>
    rw [pushAll_concat, size_push, ih, List.length_append, List.length_singleton]

/-- **Where nodes are pushed in the order of their numbers and behind their children, each node
stands at its number, and its parent is the one that adopted it last.** -/
theorem getElem?_pushAll {ns : List Node} (hids : ns.map Node.id = List.range ns.length)
    (hbelow : ∀ n ∈ ns, ∀ c ∈ n.children, c.id < n.id) (i : Nat) :
    (pushAll ns)[i]? =
      ns[i]?.map fun n => ⟨n.kind.map Node.id, adopter? ns i, n.position⟩ := by
  induction ns using List.reverseRecOn with
  | nil => rfl
  | append_singleton ns n ih =>
    rw [List.length_append, List.length_singleton, List.range_succ, List.map_append] at hids
    obtain ⟨hids, hid⟩ := List.append_inj' hids rfl
    obtain ⟨hns, hn⟩ := List.forall_mem_append.mp hbelow
    have hid : n.id = ns.length := List.head_eq_of_cons_eq hid
    have hn : ∀ c ∈ n.children, c.id < ns.length := hid ▸ hn n List.mem_cons_self
    rw [pushAll_concat, getElem?_push, size_pushAll, ih hids hns, Kind.children_map,
      adopter?_concat, hid]
    by_cases hi : i = ns.length
    · -- Nothing before is the parent of the new node, since children come first.
      subst hi
      have hnot : ns.length ∉ n.children.map Node.id := by
        intro hmem
        obtain ⟨c, hc, heq⟩ := List.mem_map.mp hmem
        exact absurd heq (Nat.ne_of_lt (hn c hc))
      have hnone : adopter? ns ns.length = none := by
        refine adopter?_eq_none fun m hm c hc => ?_
        have hlt : m.id < ns.length :=
          List.mem_range.mp (hids ▸ List.mem_map_of_mem hm)
        exact Nat.ne_of_lt (Nat.lt_trans (hns m hm c hc) hlt)
      rw [if_pos rfl, if_neg hnot, hnone, List.getElem?_concat_length]
      rfl
    · rw [if_neg hi]
      obtain hlt | hge := Nat.lt_or_ge i ns.length
      · rw [List.getElem?_append_left hlt, Option.map_map]
        refine congrArg (Option.map · _) (funext fun m => ?_)
        change (if i ∈ n.children.map Node.id then _ else _) = _
        split <;> rfl
      · have hge' : (ns ++ [n]).length ≤ i := by
          rw [List.length_append, List.length_singleton]
          omega
        rw [List.getElem?_eq_none hge, List.getElem?_eq_none hge']
        rfl

/-! ## The nodes of a tree in order -/

variable {root n m q c : Node} {parent : Option Nat}

theorem size_foldl_setIfInBounds (ns : List Node) (slots : Array (Option Node)) :
    (ns.foldl (fun slots n => slots.setIfInBounds n.id (some n)) slots).size = slots.size := by
  induction ns generalizing slots with
  | nil => rfl
  | cons n ns ih => rw [List.foldl_cons, ih, Array.size_setIfInBounds]

/-- Nodes with different numbers that are written at their numbers stand there. -/
theorem getElem?_foldl_setIfInBounds {ns : List Node} (hnodup : (ns.map Node.id).Nodup)
    (slots : Array (Option Node)) (hm : m ∈ ns) (hlt : m.id < slots.size) :
    (ns.foldl (fun slots n => slots.setIfInBounds n.id (some n)) slots)[m.id]? = some (some m) := by
  induction ns using List.reverseRecOn with
  | nil => cases hm
  | append_singleton ns n ih =>
    rw [List.map_append, List.nodup_append] at hnodup
    obtain ⟨hns, -, hapart⟩ := hnodup
    rw [List.foldl_concat]
    rcases List.mem_append.mp hm with hm | hm
    · have hne : n.id ≠ m.id :=
        (hapart m.id (List.mem_map_of_mem hm) n.id List.mem_cons_self).symm
      rw [Array.getElem?_setIfInBounds_ne hne]
      exact ih hns hm
    · obtain rfl := List.mem_singleton.mp hm
      rw [← size_foldl_setIfInBounds ns slots] at hlt
      exact Array.getElem?_setIfInBounds_self_of_lt hlt

section

variable {raw : RawNode} (h : Node.ofRaw? raw = .ok root)
include h

theorem getElem?_slots (hm : m ∈ root.preorder) :
    (root.preorder.foldl (fun (slots : Array (Option Node)) n => slots.setIfInBounds n.id (some n))
      (.replicate root.size none))[m.id]? = some (some m) :=
  getElem?_foldl_setIfInBounds (Node.nodup_ids_of_ofRaw? h) _ hm
    (Array.size_replicate ▸ Node.id_lt_size_of_ofRaw? h hm)

/-- The nodes in order are those of the tree. -/
theorem mem_inOrder : m ∈ inOrder root ↔ m ∈ root.preorder := by
  unfold inOrder
  rw [List.mem_filterMap]
  constructor
  · rintro ⟨id, hid, hm⟩
    obtain ⟨n, hn, rfl⟩ := Node.exists_id_eq_of_ofRaw? h (List.mem_range.mp hid)
    rw [getElem?_slots h hn] at hm
    cases hm
    exact hn
  · intro hm
    exact ⟨m.id, List.mem_range.mpr (Node.id_lt_size_of_ofRaw? h hm),
      congrArg Option.join (getElem?_slots h hm)⟩

/-- In order, the numbers of the nodes are 0, 1 and so on. -/
theorem map_id_inOrder : (inOrder root).map Node.id = List.range root.size := by
  unfold inOrder
  rw [List.map_filterMap]
  refine (List.filterMap_congr fun id hid => ?_).trans List.filterMap_some
  obtain ⟨n, hn, rfl⟩ := Node.exists_id_eq_of_ofRaw? h (List.mem_range.mp hid)
  rw [getElem?_slots h hn]
  rfl

theorem length_inOrder : (inOrder root).length = root.size := by
  rw [← List.length_map Node.id, map_id_inOrder h, List.length_range]

/-- Each node stands at its number. -/
theorem getElem?_inOrder (hm : m ∈ root.preorder) : (inOrder root)[m.id]? = some m := by
  obtain ⟨i, hi⟩ := List.mem_iff_getElem?.mp ((mem_inOrder h).mpr hm)
  have hid := congrArg (Option.map Node.id) hi
  rw [← List.getElem?_map, map_id_inOrder h] at hid
  obtain ⟨hlt, hid⟩ := List.getElem?_eq_some_iff.mp hid
  have hid : i = m.id := (List.getElem_range hlt).symm.trans hid
  rwa [← hid]

/-- The parent that adopts a child is the node whose child it is. -/
theorem adopter?_inOrder (hq : q ∈ root.preorder) (hc : c ∈ q.children) :
    adopter? (inOrder root) c.id = some q.id := by
  have hmem : c.id ∈ q.children.map Node.id := List.mem_map_of_mem hc
  unfold adopter?
  cases hfind : (inOrder root).reverse.find? fun n => decide (c.id ∈ n.children.map Node.id) with
  | none =>
    have hnot := List.find?_eq_none.mp hfind q
      (List.mem_reverse.mpr ((mem_inOrder h).mpr hq))
    exact absurd (decide_eq_true hmem) hnot
  | some m =>
    have hm := (mem_inOrder h).mp (List.mem_reverse.mp (List.mem_of_find?_eq_some hfind))
    have hcm : c.id ∈ m.children.map Node.id := by simpa using List.find?_some hfind
    -- The number stands in the children of one node only.
    have hcount := Node.count_children (Node.nodup_ids_of_ofRaw? h) hq hc hm
    have hpos := List.count_pos_iff.mpr hcm
    rw [hcount] at hpos
    split at hpos
    · rename_i heq
      exact congrArg some heq
    · cases hpos

end

/-! ## The table of a tree -/

/-- A table has the entries of a tree if each node stands at its number and the links lead to the
parents in the tree. -/
theorem has_entries {g : Graph} {link : Nat → Option Nat}
    (hnodes : ∀ m ∈ n.preorder,
      g.nodes[m.id]? = some ⟨m.kind.map Node.id, link m.id, m.position⟩)
    (hlink : ∀ q ∈ n.preorder, ∀ c ∈ q.children, link c.id = some q.id)
    (hparent : link n.id = parent) : g.Has (entries n parent) := by
  induction n using Node.induction generalizing parent with
  | step n ih =>
    rw [entries_eq]
    refine List.forall_mem_cons.mpr ⟨?_, fun e he => ?_⟩
    · rw [← hparent]
      exact hnodes n n.mem_preorder_self
    · obtain ⟨c, hc, he⟩ := List.mem_flatMap.mp he
      have hsub {m : Node} (hm : m ∈ c.preorder) : m ∈ n.preorder :=
        Node.mem_preorder_of_mem_children hc hm
      exact ih c hc (fun m hm => hnodes m (hsub hm)) (fun q hq => hlink q (hsub hq))
        (hlink n n.mem_preorder_self c hc) e he

variable {raw : RawNode}

/-- The table of a tree that has been read has a place for each of its nodes. -/
theorem size_ofTree (h : Node.ofRaw? raw = .ok root) : (ofTree root).nodes.size = root.size :=
  (size_pushAll _).trans (length_inOrder h)

/-- **The table of a tree that has been read has the entries of the tree.** -/
theorem has_entries_ofTree (h : Node.ofRaw? raw = .ok root) :
    (ofTree root).Has (entries root none) := by
  have hascending := Node.ascending_of_ofRaw? h
  have hids : (inOrder root).map Node.id = List.range (inOrder root).length := by
    rw [map_id_inOrder h, length_inOrder h]
  refine has_entries (fun m hm => ?_) (fun q hq c hc => adopter?_inOrder h hq hc) ?_
  · exact (getElem?_pushAll hids
      (fun n hn => hascending n ((mem_inOrder h).mp hn)) m.id).trans
        (congrArg (Option.map _) (getElem?_inOrder h hm))
  · -- The root has the last number, and children have smaller ones than their parents.
    refine adopter?_eq_none fun n hn c hc => Nat.ne_of_lt ?_
    have hn := (mem_inOrder h).mp hn
    exact Nat.lt_of_lt_of_le (hascending n hn c hc) (hascending.le hn)

end Graph

end MiniJava
