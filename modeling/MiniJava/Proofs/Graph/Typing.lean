import MiniJava.Graph.Typing
import MiniJava.Proofs.Graph.Shows
import MiniJava.Proofs.Typing.Checks

/-!
# Types in a graph that shows a tree

In a tree the demands on calls are handed down, and in a graph they are looked for, upwards from the
call and then down into its neighbours. Where a graph shows a tree, both ways lead to the same types:
`Shows.typeOf?_eq` for the types of expressions, and `Shows.typeOf?_withPlaced` for the scopes in
which the checks look at a graph.

A number of steps is enough for the type of an expression if it is as large as the expression
together with what has to be known for the demand on it (`Stands.typeWithin?_eq`). A call and a
neighbour of it are different parts of a tree, so that the size of the tree is enough.
-/

namespace MiniJava

namespace Graph

variable {g : Graph} {sc : Scope} {n c : Node} {parent : Option Nat} {d : Ty}

/-- A tree stands below a parent in the table, its nodes have different numbers, and the table is
large enough for it. -/
structure Stands (g : Graph) (n : Node) (parent : Option Nat) : Prop where
  has : g.Has (entries n parent)
  nodup : (n.preorder.map Node.id).Nodup
  size_le : n.size ≤ g.nodes.size

theorem size_pos (n : Node) : 0 < n.size := by
  rw [Node.size_eq]
  exact Nat.succ_pos _

/-- Two children that differ are together smaller than their parent. -/
theorem add_size_lt {x y : Node} (hx : x ∈ n.children) (hy : y ∈ n.children) (hne : x ≠ y) :
    x.size + y.size < n.size := by
  have hsum : ∀ ns : List Node, x ∈ ns → y ∈ ns → x.size + y.size ≤ (ns.map Node.size).sum := by
    intro ns
    induction ns with
    | nil => exact nofun
    | cons m ns ih =>
      have single {z : Node} (hz : z ∈ ns) : z.size ≤ (ns.map Node.size).sum :=
        List.single_le_sum (fun _ _ => Nat.zero_le _) _ (List.mem_map_of_mem hz)
      intro hx hy
      rw [List.map_cons, List.sum_cons]
      rcases List.mem_cons.mp hx with rfl | hx' <;> rcases List.mem_cons.mp hy with rfl | hy'
      · exact absurd rfl hne
      · exact Nat.add_le_add_left (single hy') _
      · rw [Nat.add_comm]
        exact Nat.add_le_add_left (single hx') _
      · exact (ih hx' hy').trans (Nat.le_add_left _ _)
  have hsize := n.size_eq
  have := hsum n.children hx hy
  omega

theorem Shows.stands (h : g.Shows n) : g.Stands n none := ⟨h.has, h.nodup, h.size_le⟩

namespace Stands

theorem child (h : g.Stands n parent) (hc : c ∈ n.children) : g.Stands c (some n.id) :=
  ⟨h.has.child hc, h.nodup.sublist ((Node.preorder_infix_of_mem_children hc).sublist.map _),
    (size_lt_of_mem_children hc).le.trans h.size_le⟩

theorem parent?_eq (h : g.Stands n parent) : g.parent? n.id = parent := by
  have hentry := h.has
  rw [entries_eq] at hentry
  unfold Graph.parent?
  rw [hentry _ List.mem_cons_self]
  rfl

/-- The children of a node have different numbers. -/
theorem nodup_children (h : g.Stands n parent) : (n.children.map Node.id).Nodup := by
  have hnodup := h.nodup
  rw [Node.preorder_eq, List.map_cons, List.nodup_cons] at hnodup
  refine hnodup.2.sublist (List.Sublist.map _ ?_)
  generalize n.children = cs
  induction cs with
  | nil => exact .slnil
  | cons c cs ih =>
    rw [List.flatMap_cons, Node.preorder_eq, List.cons_append]
    exact (ih.trans (List.sublist_append_right _ _)).cons_cons c

/-! ## Places -/

/-- Going up through parentheses takes less steps than there are nodes below. -/
theorem place_unwrap (h : g.Stands n parent) :
    ∃ j < n.size, ∀ steps, g.place (steps + j) n.unwrap.id = g.place steps n.id := by
  induction n using Node.induction generalizing parent with
  | step n ih =>
    obtain ⟨i, p, k⟩ := n
    cases k with
    | paren inner =>
      have hinner := h.child (c := inner) List.mem_cons_self
      obtain ⟨j, hj, hplace⟩ := ih inner List.mem_cons_self hinner
      have hlt := size_lt_of_mem_children (n := ⟨i, p, .paren inner⟩) (c := inner)
        List.mem_cons_self
      refine ⟨j + 1, by omega, fun steps => ?_⟩
      have hup : g.place (steps + 1) inner.id = g.place steps i := by
        have hkind : g.kind i = .paren inner.id := h.has.kind
        simp only [place, hinner.parent?_eq, hkind, Kind.label, if_true]
      rw [Nat.add_comm j 1, ← Nat.add_assoc, ← hup]
      exact hplace (steps + 1)
    | _ => exact ⟨0, size_pos _, fun _ => rfl⟩

/-- The place of a child is its parent, if this is no parenthesis. -/
theorem place_child (h : g.Stands n parent) (hn : n.label ≠ .paren) (hc : c ∈ n.children) :
    g.place g.nodes.size c.unwrap.id = (c.id, some n.id) := by
  obtain ⟨j, hj, hplace⟩ := (h.child hc).place_unwrap
  obtain ⟨steps, hsteps⟩ : ∃ steps, g.nodes.size = steps + 1 + j :=
    ⟨g.nodes.size - (1 + j), by have := (h.child hc).size_le; omega⟩
  have hlabel : (g.kind n.id).label ≠ .paren := by
    rwa [h.has.kind, Kind.label_map]
  rw [hsteps, hplace]
  simp only [place, (h.child hc).parent?_eq, if_neg hlabel]

/-- What is demanded of a child is what the kind of its parent demands. -/
theorem demandOf_child (h : g.Stands n parent) (hn : n.label ≠ .paren) (hc : c ∈ n.children)
    (T : Nat → Option Ty) :
    g.demandOf sc T c.unwrap.id = g.childDemand sc T c.id (n.kind.map Node.id) := by
  unfold demandOf
  simp only [h.place_child hn hc, h.has.kind]

theorem isCallWithin_eq (h : g.Stands n parent) {steps : Nat} (hsteps : n.size ≤ steps) :
    g.isCallWithin steps n.id = n.isCall := by
  induction n using Node.induction generalizing parent steps with
  | step n ih =>
    obtain ⟨steps, rfl⟩ := Nat.exists_eq_add_one_of_ne_zero
      (Nat.ne_of_gt ((size_pos n).trans_le hsteps))
    unfold isCallWithin
    rw [h.has.kind]
    obtain ⟨i, p, k⟩ := n
    cases k with
    | paren inner =>
      have hlt := size_lt_of_mem_children (n := ⟨i, p, .paren inner⟩) (c := inner)
        List.mem_cons_self
      exact ih inner List.mem_cons_self (h.child List.mem_cons_self) (by omega)
    | _ => rfl

theorem isCall_eq (h : g.Stands n parent) : g.isCall n.id = n.isCall :=
  h.isCallWithin_eq h.size_le

/-! ## Demands -/

/-- The type of the first expression that is no call, whichever call looks for it. -/
theorem firstKnown_eq {ns : List Node} (hstands : ∀ x ∈ ns, ∃ parent, g.Stands x parent)
    {T : Nat → Option Ty} (hT : ∀ x ∈ ns, x.isCall = false → T x.id = sc.typeOf? .int x) :
    g.firstKnown T (ns.map Node.id) = sc.firstKnown ns := by
  induction ns with
  | nil => rfl
  | cons n ns ih =>
    obtain ⟨⟨parent, hn⟩, hns⟩ := List.forall_mem_cons.mp hstands
    obtain ⟨hTn, hTns⟩ := List.forall_mem_cons.mp hT
    have ih := ih hns hTns
    unfold Graph.firstKnown at ih ⊢
    rw [List.map_cons, List.find?_cons, hn.isCall_eq, Scope.firstKnown, ← ih]
    cases hcall : n.isCall with
    | true => rfl
    | false => exact congrArg (Option.getD · .int) (hTn hcall)

theorem firstKnown_filter (hc : g.Stands c parent) (hcall : c.isCall = true)
    (T : Nat → Option Ty) (ids : List Nat) :
    g.firstKnown T (ids.filter (· ≠ c.id)) = g.firstKnown T ids := by
  unfold Graph.firstKnown
  rw [List.find?_filter]
  congr 3
  funext id
  by_cases hid : id = c.id
  · rw [hid, hc.isCall_eq, hcall]
    simp
  · simp [hid]

/-- **What the kind of a parent demands of a call is what the parent demands in the tree**, if the
types of its other children are known. -/
theorem childDemand_eq (h : g.Stands n parent) (hn : n.label ≠ .paren) {x : Node × Ty}
    (hx : x ∈ n.children.zip (sc.demands d n)) (hcall : x.1.isCall = true) {T : Nat → Option Ty}
    (hT : ∀ y ∈ n.children, y.isCall = false → T y.id = sc.typeOf? .int y)
    (hreceiver : ∀ r m as, n.kind = .call r m as → r ≠ x.1 → T r.id = sc.typeOf? .object r) :
    g.childDemand sc T x.1.id (n.kind.map Node.id) = x.2 := by
  have hnodup := h.nodup_children
  have hstands : ∀ y ∈ n.children, ∃ parent, g.Stands y parent := fun y hy => ⟨_, h.child hy⟩
  obtain ⟨i, p, k⟩ := n
  obtain ⟨c, d'⟩ := x
  have sibling {y : Node} (hy : y ∈ Node.children ⟨i, p, k⟩) :
      g.firstKnown T [y.id] = sc.siblingDemand y :=
    firstKnown_eq (List.forall_mem_singleton.mpr (hstands y hy))
      (List.forall_mem_singleton.mpr (hT y hy))
  cases k with
  | assign | exprStmt | unary | arrayLength | newArray =>
    cases List.mem_singleton.mp hx
    rfl
  | returning value =>
    cases value with
    | none => cases hx
    | some value =>
      cases List.mem_singleton.mp hx
      rfl
  | arrayAssign target index value =>
    have hne : index.id ≠ value.id := by simpa [Node.children, Kind.children] using hnodup
    rcases List.mem_cons.mp hx with hx | hx
    · cases hx
      exact if_pos rfl
    · cases List.mem_singleton.mp hx
      exact if_neg hne
  | arrayAccess array index =>
    have hne : array.id ≠ index.id := by simpa [Node.children, Kind.children] using hnodup
    rcases List.mem_cons.mp hx with hx | hx
    · cases hx
      exact if_neg hne.symm
    · cases List.mem_singleton.mp hx
      exact if_pos rfl
  | binary op left right =>
    have hne : left.id ≠ right.id := by simpa [Node.children, Kind.children] using hnodup
    have hl := sibling List.mem_cons_self
    have hr := sibling mem_second
    replace hx : (c, d') ∈ [(left, (sc.operandDemands op left right).1),
      (right, (sc.operandDemands op left right).2)] := hx
    simp only [Kind.map, childDemand]
    rcases List.mem_cons.mp hx with hx | hx
    · cases hx
      rw [if_pos rfl, hr]
      simp only [Scope.operandDemands]
      split <;> [rfl; (split <;> rfl)]
    · cases List.mem_singleton.mp hx
      rw [if_neg hne, hl]
      simp only [Scope.operandDemands]
      split <;> [rfl; (split <;> rfl)]
  | ifElse condition thenBranch elseBranch =>
    have hd : d' ∈ Ty.boolean :: Ty.boolean :: elseBranch.toList.map fun _ => .boolean :=
      (List.of_mem_zip hx).2
    obtain rfl : d' = .boolean := by
      rcases List.mem_cons.mp hd with hd | hd
      · exact hd
      · rcases List.mem_cons.mp hd with hd | hd
        · exact hd
        · exact List.eq_of_mem_map_const hd
    rfl
  | whileLoop condition body =>
    rcases List.mem_cons.mp hx with hx | hx
    · cases hx
      rfl
    · cases List.mem_singleton.mp hx
      rfl
  | call receiver method arguments =>
    rcases List.mem_cons.mp hx with hx | hx
    · cases hx
      exact if_pos rfl
    · replace hx : (c, d') ∈ arguments.zip (sc.argumentDemands receiver method arguments) := hx
      obtain ⟨j, hj, heq⟩ := List.mem_iff_getElem.mp hx
      rw [List.getElem_zip] at heq
      have hj' : j < arguments.length := (List.length_zip ▸ hj).trans_le (Nat.min_le_left _ _)
      obtain ⟨rfl, rfl⟩ := Prod.mk.inj heq
      obtain ⟨hne, hdistinct⟩ := List.nodup_cons.mp hnodup
      replace hne : receiver.id ≠ arguments[j].id :=
        fun heq => hne (heq ▸ List.mem_map_of_mem (List.getElem_mem hj'))
      have htype := hreceiver receiver method arguments rfl fun heq => hne (congrArg Node.id heq)
      have hindex : (arguments.map Node.id).idxOf? arguments[j].id = some j := by
        refine List.idxOf?_eq_some_iff.mpr ⟨(List.length_map _).symm ▸ hj', List.getElem_map _, ?_⟩
        intro j' hlt heq
        rw [← List.getElem_map Node.id, hdistinct.getElem_inj_iff] at heq
        · exact Nat.ne_of_lt hlt heq
        · rwa [List.length_map]
      simp only [Kind.map, childDemand, if_neg hne, htype, hindex, Option.getD_some]
      simp only [Scope.argumentDemands, Scope.isLocalReceiver, decide_eq_true_eq]
      split
      · simp
      · simp
  | arrayLit elements =>
    have hd : d' = sc.firstKnown elements :=
      List.eq_of_mem_replicate (List.of_mem_zip hx).2
    have hc := h.child (List.of_mem_zip hx).1
    rw [hd]
    exact (firstKnown_filter hc hcall T _).trans (firstKnown_eq hstands hT)
  | paren => exact absurd rfl hn
  | program | classDecl | methodDecl | block =>
    have hd : d' ∈ List.map (fun _ => Ty.int) _ := (List.of_mem_zip hx).2
    obtain ⟨_, -, rfl⟩ := List.mem_map.mp hd
    rfl
  | _ => cases hx

/-! ## Types -/

/-- From so many steps on, the graph demands of a call what the tree does. -/
def Demanded (g : Graph) (sc : Scope) (d : Ty) (n : Node) (f : Nat) : Prop :=
  n.isCall = true → ∀ steps ≥ f, g.demandOf sc (g.typeWithin? sc steps) n.unwrap.id = d

/-- The types of an expression are found in as many steps as the demand on it needs and its size. -/
def Typed (g : Graph) (sc : Scope) (n : Node) : Prop :=
  ∀ d f steps, Demanded g sc d n f → f + n.size ≤ steps →
    g.typeWithin? sc steps n.id = sc.typeOf? d n

theorem typeWithin?_of_not_isCall (hc : Typed g sc c) (hcall : c.isCall = false) {steps : Nat}
    (hsteps : c.size ≤ steps) (d : Ty) : g.typeWithin? sc steps c.id = sc.typeOf? d c :=
  hc d 0 steps (fun h => absurd (hcall.symm.trans h) Bool.false_ne_true)
    ((Nat.zero_add _).trans_le hsteps)

/-- A call that is a child is demanded what its parent demands in the tree, once the types of the
other children are found. -/
theorem demanded_child (h : g.Stands n parent) (hn : n.label ≠ .paren)
    (htyped : ∀ y ∈ n.children, Typed g sc y) {x : Node × Ty}
    (hx : x ∈ n.children.zip (sc.demands d n)) :
    Demanded g sc x.2 x.1 (n.size - 1 - x.1.size) := by
  have hx' : x.1 ∈ n.children := (List.of_mem_zip hx).1
  intro hcall steps hsteps
  have hfits {y : Node} (hy : y ∈ n.children) (hne : y ≠ x.1) : y.size ≤ steps := by
    have := add_size_lt hy hx' hne
    omega
  rw [h.demandOf_child hn hx']
  refine h.childDemand_eq hn hx hcall (fun y hy hycall => ?_) fun r m as hkind hne => ?_
  · refine typeWithin?_of_not_isCall (htyped y hy) hycall (hfits hy ?_) .int
    rintro rfl
    exact Bool.false_ne_true (hycall.symm.trans hcall)
  · have hr : r ∈ n.children := by
      rw [Node.children, hkind]
      exact List.mem_cons_self
    refine htyped r hr .object 0 steps (fun _ steps _ => ?_)
      ((Nat.zero_add _).trans_le (hfits hr hne))
    rw [h.demandOf_child hn hr, hkind]
    exact if_pos rfl

/-- **In a graph in which a tree stands, expressions have the types that they have in the tree.** -/
theorem typed (hplaced : sc.placed = none) (h : g.Stands n parent) : Typed g sc n := by
  induction n using Node.induction generalizing parent with
  | step n ih =>
    intro d f steps hdemand hsteps
    have hpos := size_pos n
    obtain ⟨steps, rfl⟩ := Nat.exists_eq_add_one_of_ne_zero (n := steps) (by omega)
    have ih : ∀ c ∈ n.children, Typed g sc c := fun c hc => ih c hc (h.child hc)
    have child {x : Node × Ty} (hn : n.label ≠ .paren)
        (hx : x ∈ n.children.zip (sc.demands d n)) :
        g.typeWithin? sc steps x.1.id = sc.typeOf? x.2 x.1 := by
      have hlt := size_lt_of_mem_children (List.of_mem_zip hx).1
      exact ih x.1 (List.of_mem_zip hx).1 x.2 _ steps (h.demanded_child hn ih hx) (by omega)
    unfold typeWithin?
    rw [h.has.kind]
    obtain ⟨i, p, k⟩ := n
    cases k with
    | unary op e => exact child (x := (e, .boolean)) (by rintro ⟨⟩) List.mem_cons_self
    | paren inner =>
      have hlt := size_lt_of_mem_children (n := ⟨i, p, .paren inner⟩) (c := inner)
        List.mem_cons_self
      exact ih inner List.mem_cons_self d f steps hdemand (by omega)
    | arrayAccess array index =>
      exact congrArg (Option.map Ty.element)
        (child (x := (array, .intArray)) (by rintro ⟨⟩) List.mem_cons_self)
    | arrayLit elements =>
      cases elements with
      | nil => rfl
      | cons e es =>
        have he := child (x := (e, sc.firstKnown (e :: es))) (by rintro ⟨⟩) List.mem_cons_self
        simp only [Kind.map, List.map_cons, Scope.typeOf?, hplaced]
        rw [he, sc.typeOf?_firstKnown]
        rfl
    | call receiver method arguments =>
      have hr := child (x := (receiver, .object)) (by rintro ⟨⟩) List.mem_cons_self
      simp only [Kind.map, Scope.typeOf?, hplaced]
      have hcall : g.demandOf sc (g.typeWithin? sc steps) i = d := hdemand rfl steps (by omega)
      rewrite [hr, hcall]
      rfl
    | _ => rfl

end Stands

/-! ## Sites -/

/-- What is known of a site in a graph: its node stands there, and if it is a call, what is demanded
of it is found. -/
structure Locates (g : Graph) (s : Site) (parent : Option Nat) (f : Nat) : Prop where
  stands : g.Stands s.node parent
  placed : s.scope.placed = none
  demanded : Stands.Demanded g s.scope s.demand s.node f
  fits : f + s.node.size ≤ g.nodes.size

namespace Locates

variable {t : SymbolTable} {s : Site} {f : Nat}

/-- Below a site there are sites. -/
theorem child (h : g.Locates s parent f) {x : Node × Ty}
    (hx : x ∈ s.node.children.zip (s.scope.demands s.demand s.node)) :
    ∃ f', g.Locates ⟨s.scope, x.2, x.1⟩ (some s.node.id) f' := by
  have hchild : x.1 ∈ s.node.children := (List.of_mem_zip hx).1
  have hlt := size_lt_of_mem_children hchild
  have hstands := h.stands.child hchild
  have hfits := h.fits
  by_cases hlabel : s.node.label = .paren
  · refine ⟨f, hstands, h.placed, ?_, by change f + x.1.size ≤ _; omega⟩
    have hdemanded := h.demanded
    obtain ⟨sc, d, ⟨i, p, k⟩⟩ := s
    cases k with
    | paren inner =>
      cases List.mem_singleton.mp hx
      exact hdemanded
    | _ => cases hlabel
  · refine ⟨_, hstands, h.placed, h.stands.demanded_child hlabel (fun y hy => ?_) hx, ?_⟩
    · exact (h.stands.child hy).typed h.placed
    · change s.node.size - 1 - x.1.size + x.1.size ≤ _
      omega

/-- **The sites of a tree that stands in a graph are located there.** -/
theorem of_mem_sitesWithin (hn : g.Stands n parent) {around : Option Scope}
    (haround : ∀ sc ∈ around, ∃ f, g.Locates ⟨sc, d, n⟩ parent f)
    (hs : s ∈ sitesWithin t n around d) :
    ∃ parent f, g.Locates s parent f := by
  induction n using Node.induction generalizing parent around d with
  | step n ih =>
    cases hscope : n.scopeWithin t around with
    | none =>
      obtain ⟨c, hc, hs⟩ := (mem_sitesWithin_none hscope).mp hs
      exact ih c hc (hn.child hc) (fun _ h => absurd h (Option.not_mem_none _)) hs
    | some sc =>
      have hlocated : ∃ f, g.Locates ⟨sc, d, n⟩ parent f := by
        by_cases hlabel : n.label = .methodDecl
        · obtain ⟨i, p, k⟩ := n
          cases k with
          | methodDecl head params locals body =>
            cases hscope
            exact ⟨0, hn, rfl, nofun, (Nat.zero_add _).trans_le hn.size_le⟩
          | _ => cases hlabel
        · rw [n.scopeWithin_of_not_method t around hlabel] at hscope
          exact haround sc hscope
      obtain ⟨f, hlocated⟩ := hlocated
      rcases (mem_sitesWithin_some hscope).mp hs with rfl | ⟨x, hx, hs⟩
      · exact ⟨parent, f, hlocated⟩
      · refine ih x.1 (List.of_mem_zip hx).1 (hn.child (List.of_mem_zip hx).1) ?_ hs
        rintro _ ⟨⟩
        exact hlocated.child hx

end Locates

namespace Shows

variable {t : SymbolTable} {root : Node} {s : Site}

theorem locates (h : g.Shows root) (hs : s ∈ sites t root) : ∃ parent f, g.Locates s parent f :=
  Locates.of_mem_sitesWithin h.stands (fun _ h => absurd h (Option.not_mem_none _)) hs

/-- **An expression has the type in the graph that it has in the tree**, in the scope of its method and
with what is demanded of it. -/
theorem typeOf?_eq (h : g.Shows root) (hs : s ∈ sites t root) :
    g.typeOf? s.scope s.node.id = s.scope.typeOf? s.demand s.node := by
  obtain ⟨parent, f, hlocated⟩ := h.locates hs
  exact hlocated.stands.typed hlocated.placed s.demand f _ hlocated.demanded hlocated.fits

/-- The demand on a call in the graph is that in the tree. -/
theorem demandOf_eq (h : g.Shows root) (hs : s ∈ sites t root) (hcall : s.node.label = .call) :
    g.demandOf s.scope (g.typeOf? s.scope) s.node.id = s.demand := by
  obtain ⟨parent, f, hlocated⟩ := h.locates hs
  have hfits := hlocated.fits
  have hdemand := hlocated.demanded
  obtain ⟨sc, d, ⟨i, p, k⟩⟩ := s
  cases k with
  | call => exact hdemand rfl g.nodes.size (by omega)
  | _ => cases hcall

/-- **An expression has in the scope of a graph the type that it has in the tree.** -/
theorem typeOf?_withPlaced (h : g.Shows root) (hs : s ∈ sites t root) :
    (s.scope.withPlaced (some (g.demandOf s.scope (g.typeOf? s.scope)))).typeOf? s.demand s.node =
      s.scope.typeOf? s.demand s.node := by
  obtain ⟨parent, f, hlocated⟩ := h.locates hs
  refine Scope.typeOf?_withPlaced (t := t) hlocated.placed fun s' hs' hscope hcall => ?_
  rw [← hscope]
  exact h.demandOf_eq (sitesWithin_subset hs hs') hcall

end Shows

end Graph

end MiniJava
