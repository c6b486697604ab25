import Mathlib.Algebra.Order.Group.Multiset
import Mathlib.Algebra.Ring.Nat
import MiniJava.Proofs.Tree.WellFormed
import MiniJava.Proofs.Yields
import MiniJava.Tree.OfRaw

/-!
# Numbers of nodes

Reading a raw tree makes one node of each raw node that it reads, and numbers the nodes in the order
in which they are finished. `Numbers x raws before after` says this of a reading `x`: it reads some
of `raws` in their order and adds one cell for each to the cells of its parts. A cell is what is
kept of a node in a table: its number, its kind and its position.

`RawNode.postorder` lists the raw nodes that stand for no written type, each behind its children.
A tree that has been read has the cells of some of them, numbered without gaps
(`exists_sublist_of_ofRaw?`), so its numbers are those below its size (`perm_ids_of_ofRaw?`).
-/

namespace MiniJava

/-! ## Cells -/

/-- The number, the kind and the position of a node. -/
structure Cell where
  id : Nat
  kind : String
  position : Position
deriving DecidableEq

namespace Node

/-- What is kept of a node in a table. -/
def cell (n : Node) : Cell := ⟨n.id, n.kind.name, n.position⟩

/-- The cells of a node and of all below it. -/
def cells (n : Node) : Multiset Cell := n.preorder.map cell

theorem coe_flatMap_preorder (ns : List Node) :
    ((ns.flatMap preorder).map cell : Multiset Cell) = (ns.map cells).sum := by
  induction ns with
  | nil => rfl
  | cons n ns ih =>
    rw [List.flatMap_cons, List.map_append, ← Multiset.coe_add, ih, List.map_cons, List.sum_cons]
    rfl

theorem cells_eq (n : Node) : n.cells = (n.children.map cells).sum + {n.cell} := by
  rw [add_comm, ← coe_flatMap_preorder, cells, preorder_eq]
  rfl

theorem size_eq (n : Node) : n.size = (n.children.map size).sum + 1 := fold_eq _ n

theorem card_preorder (n : Node) : n.preorder.length = n.size := by
  induction n using induction with
  | step n ih =>
    have hbelow : (n.children.flatMap preorder).length = (n.children.map size).sum := by
      rw [List.length_flatMap]
      exact congrArg List.sum (List.map_congr_left ih)
    rw [preorder_eq, List.length_cons, hbelow, size_eq]

end Node

/-! ## Raw nodes in the order of their numbers -/

namespace RawNode

mutual

/-- The nodes of a tree that stand for no written type, each behind its children. -/
def postorder : RawNode → List RawNode
  | ⟨kind, attributes, children⟩ =>
    postorderAll children ++ if isTypeKind kind then [] else [⟨kind, attributes, children⟩]

/-- The nodes of several trees that stand for no written type. -/
def postorderAll : List RawNode → List RawNode
  | [] => []
  | n :: ns => postorder n ++ postorderAll ns

end

theorem postorder_eq (n : RawNode) :
    n.postorder = postorderAll n.children ++ if isTypeKind n.kind then [] else [n] := by
  cases n
  rfl

theorem postorderAll_eq_flatMap (ns : List RawNode) : postorderAll ns = ns.flatMap postorder := by
  induction ns with
  | nil => rfl
  | cons n ns ih => rw [postorderAll, ih, List.flatMap_cons]

/-- The nodes below the child of this number. -/
def postorderAt (ns : List RawNode) (i : Nat) : List RawNode := (ns[i]?.map postorder).getD []

theorem postorderAt_zero_append_tail (ns : List RawNode) :
    postorderAt ns 0 ++ postorderAll ns.tail = postorderAll ns := by
  cases ns <;> rfl

theorem postorderAt_succ (ns : List RawNode) (i : Nat) :
    postorderAt ns (i + 1) = postorderAt ns.tail i := by
  cases ns <;> rfl

theorem postorderAt_sublist (ns : List RawNode) (i : Nat) :
    (postorderAt ns i).Sublist (postorderAll ns) := by
  induction i generalizing ns with
  | zero =>
    rw [← postorderAt_zero_append_tail ns]
    exact List.sublist_append_left _ _
  | succ i ih =>
    rw [postorderAt_succ, ← postorderAt_zero_append_tail ns]
    exact (ih ns.tail).trans (List.sublist_append_right _ _)

theorem postorderAt_two_sublist (ns : List RawNode) :
    (postorderAt ns 0 ++ postorderAt ns 1).Sublist (postorderAll ns) := by
  rw [postorderAt_succ, ← postorderAt_zero_append_tail ns]
  exact (postorderAt_sublist ns.tail 0).append_left _

theorem postorderAt_three_sublist (ns : List RawNode) :
    (postorderAt ns 0 ++ (postorderAt ns 1 ++ postorderAt ns 2)).Sublist (postorderAll ns) := by
  rw [postorderAt_succ, postorderAt_succ ns 1, ← postorderAt_zero_append_tail ns]
  exact (postorderAt_two_sublist ns.tail).append_left _

/-- The cells of raw nodes that are numbered in their order from a number on. -/
def numbered (start : Nat) (raws : List RawNode) : List Cell :=
  (raws.zipIdx start).map fun (r, i) => ⟨i, r.kind, r.position⟩

theorem numbered_append (start : Nat) (as bs : List RawNode) :
    numbered start (as ++ bs) = numbered start as ++ numbered (start + as.length) bs := by
  rw [numbered, List.zipIdx_append, List.map_append]
  rfl

end RawNode

/-! ## Numbering readings -/

open RawNode Node

/-- A reading reads some of the raw nodes in their order, gives each the next number, and adds the
cells of these to those it had before. -/
def Numbers {α : Type} (x : Numbering α) (raws : List RawNode) (before : Multiset Cell)
    (after : α → Multiset Cell) : Prop :=
  ∀ s a s', x.run s = .ok (a, s') →
    ∃ read, read.Sublist raws ∧ s' = s + read.length ∧ after a = before + ↑(numbered s read)

namespace Numbers

variable {α β : Type} {x : Numbering α} {f : α → Numbering β} {raws raws' : List RawNode}
  {before : Multiset Cell} {after : α → Multiset Cell} {after' : β → Multiset Cell}

protected theorem pure {a : α} (h : after a = before) : Numbers (pure a) raws before after := by
  rintro s _ _ ⟨⟩
  exact ⟨[], List.nil_sublist raws, rfl, h.trans (add_zero before).symm⟩

protected theorem throw (e : TreeError) : Numbers (throw e) raws before after := nofun

protected theorem bind (hx : Numbers x raws before after)
    (hf : ∀ a, Numbers (f a) raws' (after a) after') :
    Numbers (x >>= f) (raws ++ raws') before after' := by
  intro s b s'' hrun
  obtain ⟨a, s', ha, hb⟩ := run_bind_eq_ok.mp hrun
  obtain ⟨as, has, rfl, hafter⟩ := hx s a s' ha
  obtain ⟨bs, hbs, rfl, hafter'⟩ := hf a _ b s'' hb
  refine ⟨as ++ bs, has.append hbs, ?_, ?_⟩
  · rw [List.length_append, Nat.add_assoc]
  · rw [hafter', hafter, numbered_append, ← Multiset.coe_add, add_assoc]

/-- What may fail without a state numbers nothing. -/
theorem lift {y : Except TreeError α} {f : α → Numbering β}
    (hf : ∀ a, Numbers (f a) raws before after') : Numbers (liftM y >>= f) raws before after' := by
  cases y with
  | ok a => exact hf a
  | error e => exact nofun

theorem mono (h : Numbers x raws before after) (hsub : raws.Sublist raws') :
    Numbers x raws' before after := by
  intro s a s' hrun
  obtain ⟨read, hread, hs, hafter⟩ := h s a s' hrun
  exact ⟨read, hread.trans hsub, hs, hafter⟩

/-- Cells that were there before stay. -/
theorem frame (h : Numbers x raws 0 after) (before : Multiset Cell) :
    Numbers x raws before fun a => before + after a := by
  intro s a s' hrun
  obtain ⟨read, hread, hs, hafter⟩ := h s a s' hrun
  exact ⟨read, hread, hs, congrArg (before + ·) (hafter.trans (zero_add _))⟩

/-- A finished node adds one cell to those of its children. -/
theorem finish {raw : RawNode} {k : Kind Node} (hkind : k.name = raw.kind)
    (h : (k.children.map cells).sum = before) : Numbers (finish raw k) [raw] before cells := by
  rintro s _ _ ⟨⟩
  refine ⟨[raw], List.Sublist.refl _, rfl, ?_⟩
  rw [cells_eq]
  change (k.children.map cells).sum + {⟨s, k.name, raw.position⟩} = _
  rw [h, hkind]
  rfl

end Numbers

/-- Reading the raw node numbers the nodes that it makes. -/
def RawNode.ReadsNumbered (raw : RawNode) : Prop :=
  ∀ before, Numbers (read raw) raw.postorder before fun n => before + n.cells

namespace Node

variable {raws : List RawNode}

/-! ## Rows of children -/

theorem readChild_numbers (kind : String) (h : ∀ r ∈ raws, r.ReadsNumbered) (n index : Nat)
    (before : Multiset Cell) :
    Numbers (readChild kind raws n index) (postorderAt raws n) before
      fun c => before + c.cells := by
  induction raws generalizing n with
  | nil => exact .throw _
  | cons r rs ih =>
    cases n with
    | zero => exact h r List.mem_cons_self before
    | succ n => exact ih (fun r' hr' => h r' (List.mem_cons_of_mem r hr')) n

theorem readChild?_numbers (h : ∀ r ∈ raws, r.ReadsNumbered) (n : Nat)
    (before : Multiset Cell) :
    Numbers (readChild? raws n) (postorderAt raws n) before
      fun c => before + (c.toList.map cells).sum := by
  induction raws generalizing n with
  | nil => exact .pure (add_zero _)
  | cons r rs ih =>
    cases n with
    | zero =>
      rw [← List.append_nil (postorderAt _ 0)]
      exact (h r List.mem_cons_self before).bind fun n => .pure (by simp)
    | succ n => exact ih (fun r' hr' => h r' (List.mem_cons_of_mem r hr')) n

theorem readAll_numbers (h : ∀ r ∈ raws, r.ReadsNumbered) (before : Multiset Cell) :
    Numbers (readAll raws) (postorderAll raws) before fun ns => before + (ns.map cells).sum := by
  induction raws generalizing before with
  | nil => exact .pure (by simp)
  | cons r rs ih =>
    obtain ⟨hr, hrs⟩ := List.forall_mem_cons.mp h
    refine (hr before).bind fun n => ?_
    rw [← List.append_nil (postorderAll rs)]
    refine (ih hrs (before + n.cells)).bind fun ns => .pure ?_
    rw [List.map_cons, List.sum_cons, add_assoc]

theorem readAllAfter_numbers (h : ∀ r ∈ raws, r.ReadsNumbered) (before : Multiset Cell) :
    Numbers (readAllAfter raws) (postorderAll raws.tail) before
      fun ns => before + (ns.map cells).sum := by
  cases raws with
  | nil => exact .pure (by simp)
  | cons r rs => exact readAll_numbers (List.forall_mem_cons.mp h).2 before

theorem readItems_numbers (kind : String) (h : ∀ r ∈ raws, r.ReadsNumbered)
    (before : Multiset Cell) :
    Numbers (readItems kind raws) (postorderAll raws) before
      fun ns => before + (ns.map cells).sum := by
  induction raws generalizing before with
  | nil => exact .pure (by simp)
  | cons r rs ih =>
    obtain ⟨hr, hrs⟩ := List.forall_mem_cons.mp h
    unfold readItems
    split
    · exact nofun
    · refine (hr before).bind fun n => ?_
      rw [← List.append_nil (postorderAll rs)]
      refine (ih hrs (before + n.cells)).bind fun ns => .pure ?_
      rw [List.map_cons, List.sum_cons, add_assoc]

theorem readMembers_numbers (kind : String) (h : ∀ r ∈ raws, r.ReadsNumbered)
    (before : Multiset Cell) :
    Numbers (readMembers kind raws) (postorderAll raws) before
      fun (fields, methods) => before + ((fields ++ methods).map cells).sum := by
  induction raws generalizing before with
  | nil => exact .pure (by simp)
  | cons r rs ih =>
    obtain ⟨hr, hrs⟩ := List.forall_mem_cons.mp h
    unfold readMembers
    split
    · refine (hr before).bind fun n => ?_
      rw [← List.append_nil (postorderAll rs)]
      refine (ih hrs (before + n.cells)).bind fun (fields, methods) => .pure ?_
      simp [add_assoc]
    split
    · refine (hr before).bind fun n => ?_
      rw [← List.append_nil (postorderAll rs)]
      refine (ih hrs (before + n.cells)).bind fun (fields, methods) => .pure ?_
      simp [add_assoc, add_left_comm]
    · exact .throw _

/-- The cells of the parts of a method. -/
def MethodParts.cells (parts : MethodParts) : Multiset Cell :=
  ((parts.params ++ parts.locals ++ parts.body).map Node.cells).sum

theorem readMethod_numbers (kind : String) (h : ∀ r ∈ raws, r.ReadsNumbered)
    (parts : MethodParts) :
    Numbers (readMethod kind raws parts) (postorderAll raws) parts.cells MethodParts.cells := by
  induction raws generalizing parts with
  | nil => exact .pure rfl
  | cons r rs ih =>
    obtain ⟨hr, hrs⟩ := List.forall_mem_cons.mp h
    have ih (parts : MethodParts) := ih hrs parts
    -- A node that has been read becomes one more of the parts.
    have add {parts' : Node → MethodParts}
        (hparts : ∀ n, (parts' n).cells = parts.cells + n.cells) :
        Numbers (read r >>= fun n => readMethod kind rs (parts' n)) (postorderAll (r :: rs))
          parts.cells MethodParts.cells :=
      (hr parts.cells).bind fun n => hparts n ▸ ih (parts' n)
    have skip : (postorderAll rs).Sublist (postorderAll (r :: rs)) :=
      List.sublist_append_right _ _
    unfold readMethod
    split
    · split
      · exact nofun
      · exact .lift fun t => (ih { parts with returnType := some t }).mono skip
    split
    · exact add fun n => by simp [MethodParts.cells, add_assoc, add_comm]
    split
    · exact add fun n => by simp [MethodParts.cells, add_assoc, add_comm]
    split
    · exact add fun n => by simp [MethodParts.cells, add_assoc, add_comm]
    · exact .throw _

/-! ## Whole trees -/

/-- The word for a sort of node is its name. -/
theorem name_of_ofName? {kind : String} {l : Label} (h : Label.ofName? kind = some l) :
    l.name = kind :=
  beq_iff_eq.mp (List.find?_some h :)

theorem isTypeKind_of_ofName? {kind : String} {l : Label} (h : Label.ofName? kind = some l) :
    RawNode.isTypeKind kind = false := by
  rw [← name_of_ofName? h]
  cases l <;> decide

/-- **Reading a raw tree numbers the nodes that it makes.** -/
theorem read_numbers (raw : RawNode) : raw.ReadsNumbered := by
  induction raw using RawNode.induction with
  | step raw ih =>
    obtain ⟨kind, attributes, children⟩ := raw
    intro before
    refine Numbers.frame ?_ before
    have child (n index : Nat) := readChild_numbers kind ih n index
    unfold read
    cases hl : Label.ofName? kind with
    | none => exact .throw _
    | some l =>
      have hname := name_of_ofName? hl
      have hpost : postorder ⟨kind, attributes, children⟩ =
          postorderAll children ++ [⟨kind, attributes, children⟩] := by
        rw [postorder, isTypeKind_of_ofName? hl]
        rfl
      rw [hpost]
      have leaf {k : Kind Node} (hk : k.name = kind) (hchildren : k.children = []) :
          Numbers (finish ⟨kind, attributes, children⟩ k)
            (postorderAll children ++ [⟨kind, attributes, children⟩]) 0 cells :=
        (Numbers.finish hk (by rw [hchildren]; rfl)).mono (List.sublist_append_right _ _)
      have one {k : Node → Kind Node} (hk : ∀ c, (k c).name = kind)
          (hchildren : ∀ c, (k c).children = [c]) :
          Numbers (do
              let c ← readChild kind children 0 0
              finish ⟨kind, attributes, children⟩ (k c))
            (postorderAll children ++ [⟨kind, attributes, children⟩]) 0 cells :=
        ((child 0 0 0).mono (postorderAt_sublist children 0)).bind fun c =>
          .finish (hk c) (by rw [hchildren]; simp)
      have two {k : Node → Node → Kind Node} (hk : ∀ c d, (k c d).name = kind)
          (hchildren : ∀ c d, (k c d).children = [c, d]) :
          Numbers (do
              let c ← readChild kind children 0 0
              let d ← readChild kind children 1 1
              finish ⟨kind, attributes, children⟩ (k c d))
            (postorderAll children ++ [⟨kind, attributes, children⟩]) 0 cells := by
        refine Numbers.mono ?_ ((postorderAt_two_sublist children).append_right _)
        rw [List.append_assoc]
        exact (child 0 0 0).bind fun c => (child 1 1 _).bind fun d =>
          .finish (hk c d) (by rw [hchildren]; simp)
      cases l with
      | program =>
        exact (readItems_numbers kind ih 0).bind fun items =>
          .finish hname (by simp [Kind.children])
      | classDecl =>
        exact (readMembers_numbers kind ih 0).bind fun members => .lift fun name =>
          .finish hname (by simp [Kind.children])
      | methodDecl =>
        exact (readMethod_numbers kind ih {}).bind fun parts => .lift fun name =>
          .finish hname (by simp [Kind.children, MethodParts.cells])
      | importDecl | varRef | intLit | boolLit | newObject => exact .lift fun _ => leaf hname rfl
      | varDecl | param => exact .lift fun _ => .lift fun _ => leaf hname rfl
      | this => exact leaf hname rfl
      | assign | unary => exact .lift fun _ => one (fun _ => hname) fun _ => rfl
      | exprStmt | newArray | arrayLength | paren => exact one (fun _ => hname) fun _ => rfl
      | arrayAssign | binary => exact .lift fun _ => two (fun _ _ => hname) fun _ _ => rfl
      | whileLoop | arrayAccess => exact two (fun _ _ => hname) fun _ _ => rfl
      | returning =>
        exact ((readChild?_numbers ih 0 0).mono (postorderAt_sublist children 0)).bind fun value =>
          .finish hname (by simp [Kind.children])
      | block | arrayLit =>
        exact (readAll_numbers ih 0).bind fun ns => .finish hname (by simp [Kind.children])
      | ifElse =>
        refine Numbers.mono ?_ ((postorderAt_three_sublist children).append_right _)
        rw [List.append_assoc, List.append_assoc]
        exact (child 0 0 0).bind fun c => (child 1 1 _).bind fun t =>
          (readChild?_numbers ih 2 _).bind fun e =>
            .finish hname (by simp [Kind.children, add_assoc])
      | call =>
        rw [← postorderAt_zero_append_tail, List.append_assoc]
        exact (child 0 0 0).bind fun receiver => .lift fun method =>
          (readAllAfter_numbers ih _).bind fun arguments =>
            .finish hname (by simp [Kind.children])

variable {raw : RawNode} {root : Node}

/-- A tree that has been read is numbered from 0 on. -/
theorem exists_run_of_ofRaw? (h : ofRaw? raw = .ok root) :
    ∃ s, (Node.read raw).run 0 = .ok (root, s) := by
  unfold ofRaw? StateT.run' at h
  cases hrun : Node.read raw 0 with
  | error e => rw [hrun] at h; cases h
  | ok p =>
    rw [hrun] at h
    cases h
    exact ⟨p.2, hrun⟩

/-- **A tree that has been read has the cells of raw nodes in postorder**, none of them twice, which
are numbered without gaps. -/
theorem exists_sublist_of_ofRaw? (h : ofRaw? raw = .ok root) :
    ∃ read, read.Sublist raw.postorder ∧ root.cells = ↑(numbered 0 read) := by
  obtain ⟨s, hrun⟩ := exists_run_of_ofRaw? h
  obtain ⟨read, hread, -, hcells⟩ := read_numbers raw 0 0 root s hrun
  exact ⟨read, hread, by simpa using hcells⟩

theorem size_eq_length {raws : List RawNode} (h : root.cells = ↑(numbered 0 raws)) :
    root.size = raws.length := by
  have hperm : (root.preorder.map cell).Perm (numbered 0 raws) := Multiset.coe_eq_coe.mp h
  rw [← card_preorder, ← List.length_map (f := cell), hperm.length_eq, numbered, List.length_map,
    List.length_zipIdx]

/-- The numbers of a tree that has been read are those below its size. -/
theorem perm_ids_of_ofRaw? (h : ofRaw? raw = .ok root) :
    (root.preorder.map Node.id).Perm (List.range root.size) := by
  obtain ⟨read, -, hcells⟩ := exists_sublist_of_ofRaw? h
  have hperm : (root.preorder.map cell).Perm (numbered 0 read) := Multiset.coe_eq_coe.mp hcells
  have hids : (numbered 0 read).map Cell.id = List.range read.length := by
    rw [numbered, List.map_map, List.range_eq_range', ← List.zipIdx_map_snd]
    rfl
  rw [size_eq_length hcells, ← hids]
  have hmap := hperm.map Cell.id
  rwa [List.map_map] at hmap

theorem nodup_ids_of_ofRaw? (h : ofRaw? raw = .ok root) : (root.preorder.map Node.id).Nodup :=
  (perm_ids_of_ofRaw? h).nodup_iff.mpr List.nodup_range

theorem id_lt_size_of_ofRaw? (h : ofRaw? raw = .ok root) {m : Node} (hm : m ∈ root.preorder) :
    m.id < root.size :=
  List.mem_range.mp ((perm_ids_of_ofRaw? h).mem_iff.mp (List.mem_map_of_mem hm))

theorem exists_id_eq_of_ofRaw? (h : ofRaw? raw = .ok root) {id : Nat} (hid : id < root.size) :
    ∃ m ∈ root.preorder, m.id = id :=
  List.mem_map.mp ((perm_ids_of_ofRaw? h).mem_iff.mpr (List.mem_range.mpr hid))

end Node

end MiniJava
