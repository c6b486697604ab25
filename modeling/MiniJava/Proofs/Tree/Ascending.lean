import Mathlib.Data.List.Nodup
import Mathlib.Data.List.Pairwise
import MiniJava.Proofs.Tree.Numbering

/-!
# Children have smaller numbers

Nodes are numbered as they are finished, and a node is finished behind its children. So in a tree
that has been read each child has a smaller number than its parent (`ascending_of_ofRaw?`), and the
root has the last number of all (`id_of_ofRaw?`). Where the numbers of nodes differ, each number
stands in the children of one node only (`count_children`).

A reading goes from nodes with numbers below its state to such nodes again (`Below`); since states
only grow, what has been read before stays there.
-/

namespace MiniJava

namespace Node

/-- In the tree each child has a smaller number than its parent. -/
def Ascending (n : Node) : Prop := ∀ m ∈ n.preorder, ∀ c ∈ m.children, c.id < m.id

theorem Ascending.of_children {n : Node} (h : ∀ c ∈ n.children, c.Ascending ∧ c.id < n.id) :
    n.Ascending := by
  intro m hm c hc
  rcases mem_preorder.mp hm with rfl | ⟨d, hd, hm⟩
  · exact (h c hc).2
  · exact (h d hd).1 m hm c hc

/-- In such a tree no number is greater than that of the root. -/
theorem Ascending.le {n m : Node} (h : n.Ascending) (hm : m ∈ n.preorder) : m.id ≤ n.id := by
  induction n using induction with
  | step n ih =>
    rcases mem_preorder.mp hm with rfl | ⟨c, hc, hm⟩
    · exact Nat.le_refl _
    · have hbelow : c.Ascending := fun x hx => h x (mem_preorder_of_mem_children hc hx)
      exact Nat.le_trans (ih c hc hbelow hm) (h n n.mem_preorder_self c hc).le

/-- These trees ascend, and their numbers have been given out. -/
def Below (ns : List Node) (next : Nat) : Prop := ∀ n ∈ ns, n.Ascending ∧ n.id < next

theorem Below.subset {ns ms : List Node} {next : Nat} (h : Below ns next) (hsub : ms ⊆ ns) :
    Below ms next := fun n hn => h n (hsub hn)

end Node

open Node

/-- Reading the raw node adds one tree to those that ascend. -/
def RawNode.ReadsAscending (raw : RawNode) : Prop :=
  ∀ ns, Leaves (Below ns) (read raw) fun n => Below (n :: ns)

namespace Node

variable {raws : List RawNode} {raw : RawNode} {k : Kind Node} {ns ms : List Node}
  {α β : Type} {P : Nat → Prop} {R : β → Nat → Prop}

/-- What may fail without a state numbers nothing. -/
theorem leaves_lift {y : Except TreeError α} {f : α → Numbering β} (h : ∀ a, Leaves P (f a) R) :
    Leaves P (liftM y >>= f) R := by
  cases y with
  | ok a => exact h a
  | error e => exact fun _ _ _ _ h => absurd h run_throw_ne_ok

/-- A finished node is numbered behind its children. -/
theorem leaves_finish (hk : k.children ⊆ ns) (hms : ms ⊆ ns) :
    Leaves (Below ns) (finish raw k) fun n => Below (n :: ms) := by
  rintro s hs _ _ ⟨⟩
  refine List.forall_mem_cons.mpr ⟨⟨.of_children fun c hc => hs c (hk hc), Nat.lt_succ_self s⟩, ?_⟩
  exact fun m hm => ⟨(hs m (hms hm)).1, Nat.lt_succ_of_lt (hs m (hms hm)).2⟩

/-! ## Rows of children -/

theorem readChild_ascending (kind : String) (h : ∀ r ∈ raws, r.ReadsAscending) (n index : Nat)
    (ns : List Node) :
    Leaves (Below ns) (readChild kind raws n index) fun c => Below (c :: ns) := by
  induction raws generalizing n with
  | nil => exact .throw
  | cons r rs ih =>
    cases n with
    | zero => exact h r List.mem_cons_self ns
    | succ n => exact ih (fun r' hr' => h r' (List.mem_cons_of_mem r hr')) n

theorem readChild?_ascending (h : ∀ r ∈ raws, r.ReadsAscending) (n : Nat) (ns : List Node) :
    Leaves (Below ns) (readChild? raws n) fun c => Below (c.toList ++ ns) := by
  induction raws generalizing n with
  | nil => exact .pure fun _ hs => hs
  | cons r rs ih =>
    cases n with
    | zero => exact (h r List.mem_cons_self ns).bind fun c => .pure fun _ hs => hs
    | succ n => exact ih (fun r' hr' => h r' (List.mem_cons_of_mem r hr')) n

theorem readAll_ascending (h : ∀ r ∈ raws, r.ReadsAscending) (ns : List Node) :
    Leaves (Below ns) (readAll raws) fun as => Below (as ++ ns) := by
  induction raws generalizing ns with
  | nil => exact .pure fun _ hs => hs
  | cons r rs ih =>
    obtain ⟨hr, hrs⟩ := List.forall_mem_cons.mp h
    refine (hr ns).bind fun n => (ih hrs (n :: ns)).bind fun as => .pure fun _ hs => hs.subset ?_
    grind

theorem readAllAfter_ascending (h : ∀ r ∈ raws, r.ReadsAscending) (ns : List Node) :
    Leaves (Below ns) (readAllAfter raws) fun as => Below (as ++ ns) := by
  cases raws with
  | nil => exact .pure fun _ hs => hs
  | cons r rs => exact readAll_ascending (List.forall_mem_cons.mp h).2 ns

theorem readItems_ascending (kind : String) (h : ∀ r ∈ raws, r.ReadsAscending) (ns : List Node) :
    Leaves (Below ns) (readItems kind raws) fun as => Below (as ++ ns) := by
  induction raws generalizing ns with
  | nil => exact .pure fun _ hs => hs
  | cons r rs ih =>
    obtain ⟨hr, hrs⟩ := List.forall_mem_cons.mp h
    unfold readItems
    split
    · exact .throw
    · refine (hr ns).bind fun n => (ih hrs (n :: ns)).bind fun as => .pure fun _ hs => hs.subset ?_
      grind

theorem readMembers_ascending (kind : String) (h : ∀ r ∈ raws, r.ReadsAscending)
    (ns : List Node) :
    Leaves (Below ns) (readMembers kind raws) fun members =>
      Below (members.1 ++ members.2 ++ ns) := by
  induction raws generalizing ns with
  | nil => exact .pure fun _ hs => hs
  | cons r rs ih =>
    obtain ⟨hr, hrs⟩ := List.forall_mem_cons.mp h
    unfold readMembers
    split
    · refine (hr ns).bind fun n => (ih hrs (n :: ns)).bind fun members => .pure
        fun _ hs => hs.subset ?_
      grind
    split
    · refine (hr ns).bind fun n => (ih hrs (n :: ns)).bind fun members => .pure
        fun _ hs => hs.subset ?_
      grind
    · exact .throw

/-- All nodes that have been read of a method. -/
def MethodParts.nodes (parts : MethodParts) : List Node :=
  parts.params ++ parts.locals ++ parts.body

theorem readMethod_ascending (kind : String) (h : ∀ r ∈ raws, r.ReadsAscending)
    (parts : MethodParts) (ns : List Node) :
    Leaves (Below (parts.nodes ++ ns)) (readMethod kind raws parts) fun parts =>
      Below (parts.nodes ++ ns) := by
  induction raws generalizing parts with
  | nil => exact .pure fun _ hs => hs
  | cons r rs ih =>
    obtain ⟨hr, hrs⟩ := List.forall_mem_cons.mp h
    -- A node that has been read becomes one more of the parts.
    have add {parts' : Node → MethodParts} (hparts : ∀ n, (parts' n).nodes ⊆ n :: parts.nodes) :
        Leaves (Below (parts.nodes ++ ns)) (read r >>= fun n => readMethod kind rs (parts' n))
          fun parts => Below (parts.nodes ++ ns) := by
      refine (hr _).bind fun n => (ih hrs (parts' n)).of_imp fun _ hs => hs.subset ?_
      exact List.append_subset.mpr ⟨fun x hx => by grind, by grind⟩
    unfold readMethod
    split
    · split
      · exact .throw
      · exact leaves_lift fun t => ih hrs { parts with returnType := some t }
    split
    · exact add fun n x hx => by grind [MethodParts.nodes]
    split
    · exact add fun n x hx => by grind [MethodParts.nodes]
    split
    · exact add fun n x hx => by grind [MethodParts.nodes]
    · exact .throw

/-! ## Whole trees -/

/-- **Reading a raw tree numbers children before their parents.** -/
theorem read_ascending (raw : RawNode) : raw.ReadsAscending := by
  induction raw using RawNode.induction with
  | step raw ih =>
    obtain ⟨kind, attributes, children⟩ := raw
    intro ns
    have child (n index : Nat) := readChild_ascending kind ih n index
    have keep (as : List Node) : ns ⊆ as ++ ns := List.subset_append_right as ns
    unfold read
    cases hl : Label.ofName? kind with
    | none => exact .throw
    | some l =>
      cases l with
      | program =>
        exact (readItems_ascending kind ih ns).bind fun items =>
          leaves_finish (List.subset_append_left _ _) (keep _)
      | classDecl =>
        exact (readMembers_ascending kind ih ns).bind fun members => leaves_lift fun name =>
          leaves_finish (List.subset_append_left _ _) (keep _)
      | methodDecl =>
        refine (readMethod_ascending kind ih {} ns).bind fun parts => leaves_lift fun name =>
          leaves_finish (fun c hc => ?_) (keep _)
        exact List.mem_append_left _ (by simpa [Kind.children, MethodParts.nodes] using hc)
      | importDecl | varRef | intLit | boolLit | newObject =>
        exact leaves_lift fun _ => leaves_finish (List.nil_subset _) (List.Subset.refl _)
      | varDecl | param =>
        exact leaves_lift fun _ => leaves_lift fun _ =>
          leaves_finish (List.nil_subset _) (List.Subset.refl _)
      | this => exact leaves_finish (List.nil_subset _) (List.Subset.refl _)
      | assign | unary =>
        exact leaves_lift fun _ => (child 0 0 ns).bind fun c =>
          leaves_finish (by simp [Kind.children]) (keep [c])
      | exprStmt | newArray | arrayLength | paren =>
        exact (child 0 0 ns).bind fun c => leaves_finish (by simp [Kind.children]) (keep [c])
      | arrayAssign | binary =>
        exact leaves_lift fun _ => (child 0 0 ns).bind fun c => (child 1 1 _).bind fun d =>
          leaves_finish (by simp [Kind.children]) (keep [d, c])
      | whileLoop | arrayAccess =>
        exact (child 0 0 ns).bind fun c => (child 1 1 _).bind fun d =>
          leaves_finish (by simp [Kind.children]) (keep [d, c])
      | returning =>
        exact (readChild?_ascending ih 0 ns).bind fun value =>
          leaves_finish (List.subset_append_left _ _) (keep _)
      | block | arrayLit =>
        exact (readAll_ascending ih ns).bind fun as =>
          leaves_finish (List.subset_append_left _ _) (keep _)
      | ifElse =>
        exact (child 0 0 ns).bind fun c => (child 1 1 _).bind fun t =>
          (readChild?_ascending ih 2 _).bind fun e =>
            leaves_finish (by simp [Kind.children]) (by grind)
      | call =>
        exact (child 0 0 ns).bind fun receiver => leaves_lift fun method =>
          (readAllAfter_ascending ih _).bind fun arguments =>
            leaves_finish (by simp [Kind.children]) (by grind)

variable {root : Node}

/-- **In a tree that has been read children have smaller numbers than their parents.** -/
theorem ascending_of_ofRaw? (h : ofRaw? raw = .ok root) : root.Ascending := by
  obtain ⟨s, hrun⟩ := exists_run_of_ofRaw? h
  exact (read_ascending raw [] 0 nofun root s hrun root List.mem_cons_self).1

/-- **The root of a tree that has been read has the last number.** -/
theorem id_of_ofRaw? (h : ofRaw? raw = .ok root) : root.id + 1 = root.size := by
  have hpos : 0 < root.size := by
    rw [size_eq]
    exact Nat.succ_pos _
  have hroot := id_lt_size_of_ofRaw? h root.mem_preorder_self
  obtain ⟨m, hm, hlast⟩ := exists_id_eq_of_ofRaw? h (Nat.sub_one_lt_of_lt hpos)
  have hle := (ascending_of_ofRaw? h).le hm
  omega

/-! ## Nodes and their parents -/

/-- Besides the root, a tree consists of the children of its nodes. -/
theorem preorder_perm (n : Node) : n.preorder.Perm (n :: n.preorder.flatMap children) := by
  induction n using induction with
  | step n ih =>
    rw [preorder_eq, List.flatMap_cons, List.flatMap_assoc]
    refine .cons n ?_
    have hbelow : ∀ ns ⊆ n.children, (ns.flatMap preorder).Perm
        (ns ++ ns.flatMap fun c => c.preorder.flatMap children) := by
      intro ns hns
      induction ns with
      | nil => exact .refl _
      | cons c cs ihcs =>
        obtain ⟨hc, hcs⟩ := List.cons_subset.mp hns
        rw [List.flatMap_cons, List.flatMap_cons, List.cons_append]
        refine ((ih c hc).append (ihcs hcs)).trans (.cons c ?_)
        exact List.perm_append_comm_assoc _ _ _
    exact hbelow n.children (List.Subset.refl _)

/-- Where the nodes of a tree have different numbers, the number of a child stands once in the list
of its parent and in no other. -/
theorem count_children {n q c : Node} (h : (n.preorder.map Node.id).Nodup) (hq : q ∈ n.preorder)
    (hc : c ∈ q.children) {m : Node} (hm : m ∈ n.preorder) :
    (m.children.map Node.id).count c.id = if m.id = q.id then 1 else 0 := by
  have hnodup := ((n.preorder_perm.map Node.id).nodup_iff.mp h)
  rw [List.map_cons, List.nodup_cons, List.map_flatMap] at hnodup
  obtain ⟨hlists, hdisjoint⟩ := List.nodup_flatMap.mp hnodup.2
  have hmem : c.id ∈ q.children.map Node.id := List.mem_map_of_mem hc
  split
  · rename_i heq
    rw [List.inj_on_of_nodup_map h hm hq heq]
    exact List.count_eq_one_of_mem (hlists q hq) hmem
  · rename_i hne
    have hsymm : Std.Symm (Function.onFun List.Disjoint fun q : Node => q.children.map Node.id) :=
      ⟨fun _ _ hd => hd.symm⟩
    have hapart := hdisjoint.forall hm hq fun heq => hne (congrArg Node.id heq)
    exact List.count_eq_zero.mpr fun hcount => hapart hcount hmem

end Node

end MiniJava
