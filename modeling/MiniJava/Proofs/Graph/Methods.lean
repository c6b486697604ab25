import MiniJava.Proofs.Graph.Trees
import MiniJava.Proofs.Typing.Sites

/-!
# The method that a node is in

A walk through a program keeps the scope of the last method that was entered; the graph of the
program knows the method of a node from the links to the parents (`Graph.methodHead?`). Both agree
at every node (`walk_agrees_methodHead?`).

In a graph that is a tree the links lead through larger and larger numbers, so the way up from a
node does not stop short (`Graph.IsTree.ancestor?_eq`), and a node that is no method is in the
method that its parent is in (`Graph.IsTree.methodHead?_child`). The walk never leaves a method for
a node outside of all methods: a symbol table is made only where nothing follows the class
(`SymbolTable.eq_concat_of_topLevel`), and in a class the methods come last.
-/

namespace MiniJava

/-! ## The way up -/

namespace Graph

variable {g : Graph} {root n m c : Node} {parent : Option Nat}

theorem Has.head?_of_method (h : g.Has (entries n parent)) {head : MethodHead}
    {params locals body : List Node} (hkind : n.kind = .methodDecl head params locals body) :
    g.head? n.id = some head := by
  unfold head?
  rw [h.kind, hkind]
  rfl

theorem Has.head?_of_not_method (h : g.Has (entries n parent)) (hlabel : n.label ≠ .methodDecl) :
    g.head? n.id = none := by
  unfold head?
  rw [h.kind]
  obtain ⟨i, p, k⟩ := n
  cases k with
  | methodDecl => exact absurd rfl hlabel
  | _ => rfl

theorem head?_eq_none_iff {id : Nat} : g.head? id = none ↔ (g.kind id).label ≠ .methodDecl := by
  unfold head?
  cases g.kind id <;> simp [Kind.label]

namespace IsTree

variable {p : Kind Nat → Bool} {id q : Nat}

/-- A link leads to a larger number of the table. -/
theorem lt_of_parent? (h : g.IsTree) (hq : g.parent? id = some q) : id < q ∧ q < g.nodes.size := by
  have hid : id < g.nodes.size := by
    by_contra hid
    unfold parent? at hq
    rw [Array.getElem?_eq_none (Nat.le_of_not_lt hid)] at hq
    cases hq
  have hroot : id ≠ g.root := by
    rintro rfl
    rw [h.root_parent] at hq
    cases hq
  obtain ⟨q', hlt, hq', hcount⟩ := h.child_once id hid hroot
  obtain rfl : q' = q := Option.some.inj (hq'.symm.trans hq)
  have hone := hcount q'
  rw [if_pos rfl] at hone
  have hmem : id ∈ g.children q' := List.count_pos_iff.mp (hone ▸ Nat.one_pos)
  exact ⟨h.descends q' id hmem, hlt⟩

/-- The way up has come to its end before the steps are used up. -/
theorem ancestorWithin_eq (h : g.IsTree) {steps steps' : Nat} (hsteps : g.nodes.size ≤ id + steps)
    (hsteps' : g.nodes.size ≤ id + steps') :
    g.ancestorWithin p steps id = g.ancestorWithin p steps' id := by
  -- Where no step is left, there is no parent.
  have stop {steps id : Nat} (hsize : g.nodes.size ≤ id) : g.ancestorWithin p steps id = none := by
    cases steps with
    | zero => rfl
    | succ steps =>
      rw [ancestorWithin]
      cases hq : g.parent? id with
      | none => rfl
      | some q =>
        have hlt := h.lt_of_parent? hq
        omega
  induction steps generalizing id steps' with
  | zero => exact (stop hsteps).trans (stop hsteps).symm
  | succ steps ih =>
    cases steps' with
    | zero => exact (stop hsteps').trans (stop hsteps').symm
    | succ steps' =>
      rw [ancestorWithin, ancestorWithin]
      cases hq : g.parent? id with
      | none => rfl
      | some q =>
        have hlt := h.lt_of_parent? hq
        have hrest : g.ancestorWithin p steps q = g.ancestorWithin p steps' q :=
          ih (by omega) (by omega)
        simp only [hrest]

/-- **The nearest ancestor is the parent or the nearest ancestor of the parent.** -/
theorem ancestor?_eq (h : g.IsTree) (p : Kind Nat → Bool) (id : Nat) :
    g.ancestor? p id = (g.parent? id).bind fun q =>
      if p (g.kind q) then some q else g.ancestor? p q := by
  obtain ⟨d, hsize⟩ := Nat.exists_eq_add_one_of_ne_zero (Nat.ne_zero_of_lt h.root_lt)
  unfold ancestor?
  conv_lhs => rw [hsize, ancestorWithin]
  cases hq : g.parent? id with
  | none => rfl
  | some q =>
    have hlt := h.lt_of_parent? hq
    have hrest : g.ancestorWithin p d q = g.ancestorWithin p g.nodes.size q :=
      h.ancestorWithin_eq (by omega) (by omega)
    simp only [Option.bind_some, hrest]

/-- Besides the method that it declares, a node is in the method that its parent is in. -/
theorem methodHead?_child (h : g.IsTree) (hc : id ∈ g.children q) :
    g.methodHead? id = (g.head? id).or (g.methodHead? q) := by
  unfold methodHead?
  cases hid : g.head? id with
  | some head => rfl
  | none =>
    unfold enclosingMethod?
    rw [h.ancestor?_eq, h.parent?_of_mem_children hc, Option.bind_some, Option.none_or]
    cases hq : g.head? q with
    | none =>
      have hlabel := head?_eq_none_iff.mp hq
      simp only [hlabel, decide_false, Bool.false_eq_true, if_false]
    | some head =>
      have hlabel : (g.kind q).label = .methodDecl := by
        by_contra hlabel
        rw [head?_eq_none_iff.mpr hlabel] at hq
        cases hq
      simp only [hlabel, decide_true, if_true, Option.bind_some, hq]

/-- The root is in no method but one that it declares. -/
theorem methodHead?_root (h : g.IsTree) : g.methodHead? g.root = g.head? g.root := by
  unfold methodHead? enclosingMethod?
  rw [h.ancestor?_eq, h.root_parent]
  cases g.head? g.root <;> rfl

end IsTree

/-- What stands below a node without being in a further method is in the method that the node is
in. -/
theorem methodHead?_of_mem_preorder (hg : g.IsTree) (hn : g.Has (entries n parent))
    (hbelow : ∀ c ∈ n.children, ∀ x ∈ c.preorder, x.label ≠ .methodDecl) (hm : m ∈ n.preorder) :
    g.methodHead? m.id = g.methodHead? n.id := by
  induction n using Node.induction generalizing parent with
  | step n ih =>
    rcases Node.mem_preorder.mp hm with rfl | ⟨c, hc, hm⟩
    · rfl
    · have hchild : c.id ∈ g.children n.id := hn.children ▸ List.mem_map_of_mem hc
      have hhead := (hn.child hc).head?_of_not_method (hbelow c hc c c.mem_preorder_self)
      rw [ih c hc (hn.child hc) (fun d hd x hx => hbelow c hc x
        (Node.mem_preorder_of_mem_children hd hx)) hm, hg.methodHead?_child hchild, hhead,
        Option.none_or]

/-- A node without a method around it that is no method either is in none. -/
theorem methodHead?_eq_none_of_mem_children (hg : g.IsTree) (hn : g.Has (entries n parent))
    (hnone : g.methodHead? n.id = none) (hc : c ∈ n.children) (hlabel : c.label ≠ .methodDecl) :
    g.methodHead? c.id = none := by
  have hchild : c.id ∈ g.children n.id := hn.children ▸ List.mem_map_of_mem hc
  rw [hg.methodHead?_child hchild, (hn.child hc).head?_of_not_method hlabel, hnone]
  rfl

end Graph

/-! ## The order of a program -/

/-- What the symbol table accepts are imports with one class behind them. -/
theorem SymbolTable.eq_concat_of_topLevel {ns : List Node} {imports imports' : List String}
    {c : ClassParts} (h : topLevel ns imports none = .ok (imports', c))
    (hitems : ∀ n ∈ ns, n.label = .importDecl ∨ n.label = .classDecl) :
    ∃ is n, ns = is ++ [n] ∧ ∀ i ∈ is, i.label = .importDecl := by
  induction ns generalizing imports with
  | nil => cases h
  | cons m ms ih =>
    obtain ⟨hm, hms⟩ := List.forall_mem_cons.mp hitems
    obtain ⟨i, p, k⟩ := m
    cases k with
    | importDecl path =>
      obtain ⟨is, n, rfl, his⟩ := ih h hms
      exact ⟨_ :: is, n, rfl, List.forall_mem_cons.mpr ⟨rfl, his⟩⟩
    | classDecl name superclass fields methods =>
      -- Behind the class neither an import nor a class is accepted.
      obtain rfl : ms = [] := by
        cases ms with
        | nil => rfl
        | cons x xs =>
          obtain ⟨j, q, k⟩ := x
          rcases hms _ List.mem_cons_self with hx | hx <;> cases k <;> cases hx <;> cases h
      exact ⟨[], _, rfl, List.forall_mem_nil _⟩
    | _ => rcases hm with hm | hm <;> cases hm

/-- A node of a sort that has no children is all that is below it. -/
theorem Node.eq_of_mem_preorder_of_label {n m : Node}
    (h : n.label = .importDecl ∨ n.label = .varDecl) (hm : m ∈ n.preorder) : m = n := by
  rw [preorder_eq] at hm
  obtain ⟨i, p, k⟩ := n
  cases k with
  | importDecl | varDecl => exact List.mem_singleton.mp hm
  | _ => rcases h with h | h <;> cases h

namespace Loaded

open MiniJava.Graph

variable {source : String} {root n : Node} {table : SymbolTable}

/-- A program consists of imports and a class. -/
theorem exists_children_eq (h : Loaded source root table) : ∃ is c fields,
    root.children = is ++ [c] ∧ (∀ i ∈ is, i.label = .importDecl) ∧
      c.kind = .classDecl table.className table.superclass fields root.methods := by
  obtain ⟨c, fields, hclass, hkind, -⟩ := h.exists_class?
  have hitems : ∀ n ∈ root.children, n.label = .importDecl ∨ n.label = .classDecl := by
    have hfits := h.wellFormed.fits
    have hlabel := h.label_eq
    obtain ⟨i, p, k⟩ := root
    cases k with
    | program items => exact hfits
    | _ => cases hlabel
  obtain ⟨⟨imports, parts⟩, htop, -⟩ := bind_eq_ok.mp h.declared
  obtain ⟨is, n, hchildren, his⟩ := SymbolTable.eq_concat_of_topLevel htop hitems
  have hc : c ∈ root.children :=
    Node.mem_children_of_mem_items (List.mem_of_find?_eq_some hclass)
  rw [hchildren] at hc
  rcases List.mem_append.mp hc with hc | hc
  · have himport := his c hc
    rw [Node.label, hkind] at himport
    cases himport
  · obtain rfl := List.mem_singleton.mp hc
    exact ⟨is, c, fields, hchildren, his, hkind⟩

/-- The methods of a program come last, and the nodes in front of them are in no method. -/
theorem exists_outer (h : Loaded source root table) :
    ∃ outer, root.preorder = outer ++ root.methods.flatMap Node.preorder ∧
      ∀ n ∈ outer, n.label ≠ .methodDecl ∧ (ofTree root).methodHead? n.id = none := by
  obtain ⟨is, c, fields, hchildren, his, hkind⟩ := h.exists_children_eq
  have hmembers : c.children = fields ++ root.methods := by rw [Node.children, hkind]; rfl
  refine ⟨root :: is.flatMap Node.preorder ++ c :: fields.flatMap Node.preorder, ?_, ?_⟩
  · rw [root.preorder_eq, hchildren, List.flatMap_append, List.flatMap_singleton, c.preorder_eq,
      hmembers, List.flatMap_append]
    simp only [List.cons_append, List.append_assoc]
  obtain ⟨raw, -, hread⟩ := h.tree
  have hg := isTree_ofTree hread
  have hshows := shows_ofTree hread
  have hc : c ∈ root.children := by simp [hchildren]
  have hclass := hshows.has.child hc
  -- From the root down to the fields, no node is a method and none is in one.
  have hroot : root.label ≠ .methodDecl := by rw [h.label_eq]; decide
  have hnone : (ofTree root).methodHead? root.id = none := by
    rw [← hshows.root, hg.methodHead?_root, hshows.root, hshows.has.head?_of_not_method hroot]
  have houter {n : Node} (hn : n ∈ root.children) (hlabel : n.label ≠ .methodDecl) :=
    methodHead?_eq_none_of_mem_children hg hshows.has hnone hn hlabel
  have hclabel : c.label = .classDecl := by rw [Node.label, hkind]; rfl
  have hclabel : c.label ≠ .methodDecl := by rw [hclabel]; decide
  intro n hn
  simp only [List.cons_append, List.mem_cons, List.mem_append, List.mem_flatMap] at hn
  rcases hn with rfl | ⟨i, hi, hn⟩ | rfl | ⟨f, hf, hn⟩
  · exact ⟨hroot, hnone⟩
  · obtain rfl := Node.eq_of_mem_preorder_of_label (.inl (his i hi)) hn
    have hlabel : n.label ≠ .methodDecl := by rw [his n hi]; decide
    exact ⟨hlabel, houter (by simp [hchildren, hi]) hlabel⟩
  · exact ⟨hclabel, houter hc hclabel⟩
  · have hfits := (h.wellFormed.of_mem_children hc).fits
    rw [hkind] at hfits
    obtain rfl := Node.eq_of_mem_preorder_of_label (.inr (hfits.2.1 f hf)) hn
    have hlabel : n.label ≠ .methodDecl := by rw [hfits.2.1 n hf]; decide
    have hfield : n ∈ c.children := by simp [hmembers, hf]
    exact ⟨hlabel, methodHead?_eq_none_of_mem_children hg hclass (houter hc hclabel) hfield hlabel⟩

end Loaded

/-! ## The walk -/

namespace Graph

variable {g : Graph} {scopeOf : ScopeOf}

/-- Walking through methods one after the other, each node is seen in the scope of its method. -/
theorem withScopes_flatMap_methods (hg : g.IsTree) {ms : List Node}
    (hms : ∀ m ∈ ms, m.WellFormed ∧ m.label = .methodDecl ∧ ∃ parent, g.Has (entries m parent))
    (last : Option Scope) :
    withScopes scopeOf last (ms.flatMap Node.preorder) =
      (ms.flatMap Node.preorder).map fun n => ((g.methodHead? n.id).map scopeOf, n) := by
  induction ms generalizing last with
  | nil => rfl
  | cons m ms ih =>
    obtain ⟨⟨hwf, hlabel, parent, hentries⟩, hms⟩ := List.forall_mem_cons.mp hms
    cases hkind : m.kind with
    | methodDecl head params locals body =>
      have hbelow (c : Node) (hc : c ∈ m.children) (x : Node) (hx : x ∈ c.preorder) :=
        hwf.no_method_below hlabel hc hx
      have hbelow' : ∀ x ∈ m.children.flatMap Node.preorder, x.label ≠ .methodDecl := by
        intro x hx
        obtain ⟨c, hc, hx⟩ := List.mem_flatMap.mp hx
        exact hbelow c hc x hx
      have hhead : g.methodHead? m.id = some head := by
        unfold methodHead?
        rw [hentries.head?_of_method hkind]
      -- The scope of the method stands beside all of its nodes.
      have hscope {x : Node} (hx : x ∈ m.preorder) :
          (g.methodHead? x.id).map scopeOf = some (scopeOf head) := by
        rw [methodHead?_of_mem_preorder hg hentries hbelow hx, hhead, Option.map_some]
      obtain ⟨last', happend⟩ :=
        exists_withScopes_append scopeOf last m.preorder (ms.flatMap Node.preorder)
      rw [List.flatMap_cons, happend, ih hms last', List.map_append]
      congr 1
      rw [m.preorder_eq, withScopes_cons_method scopeOf last hkind, withScopes_of_no_method hbelow',
        ← List.map_cons (f := fun x => (some (scopeOf head), x)), ← m.preorder_eq]
      exact List.map_congr_left fun x hx => by rw [hscope hx]
    | _ => rw [Node.label, hkind] at hlabel; cases hlabel

end Graph

namespace Loaded

open MiniJava.Graph

variable {source : String} {root : Node} {table : SymbolTable}

/-- A walk has beside each node the scope of the method that the node is in by its links. -/
theorem walk_eq_map_methodHead? (h : Loaded source root table) (scopeOf : ScopeOf) :
    walk scopeOf root =
      root.preorder.map fun n => (((ofTree root).methodHead? n.id).map scopeOf, n) := by
  obtain ⟨outer, hpreorder, houter⟩ := h.exists_outer
  obtain ⟨raw, -, hread⟩ := h.tree
  have hshows := shows_ofTree hread
  have hmethods : ∀ m ∈ root.methods, m.WellFormed ∧ m.label = .methodDecl ∧
      ∃ parent, (ofTree root).Has (entries m parent) := by
    intro m hm
    obtain ⟨hpre, hlabel⟩ := Node.mem_preorder_of_mem_methods hm
    exact ⟨h.wellFormed.of_mem_preorder hpre, hlabel h.wellFormed,
      hshows.has.of_mem_preorder hpre⟩
  unfold walk
  obtain ⟨last, happend⟩ :=
    exists_withScopes_append scopeOf none outer (root.methods.flatMap Node.preorder)
  rw [hpreorder, happend, withScopes_of_no_method fun n hn => (houter n hn).1,
    withScopes_flatMap_methods (isTree_ofTree hread) hmethods last, List.map_append]
  congr 1
  exact List.map_congr_left fun n hn => by rw [(houter n hn).2, Option.map_none]

end Loaded

/-- **All checks see the right method.** In the walk that they share, the nodes of the program come
by as they are seen from the root of its graph, and the scope beside a node is for the method, by
name and by whether it is static, that the links of the graph lead to; it is missing where they lead
to none. -/
theorem walk_agrees_methodHead? {source : String} {root : Node} {table : SymbolTable}
    (h : Loaded source root table) :
    (walk (Scope.ofMethod table) root).map
        (fun (sc, n) => (sc.map fun sc => (sc.method, sc.isStatic), n.id)) =
      ((Graph.ofTree root).descendants (Graph.ofTree root).root).map fun id =>
        (((Graph.ofTree root).methodHead? id).map fun head => (head.name, head.isStatic), id) := by
  obtain ⟨raw, -, hread⟩ := h.tree
  have hseen := (Graph.shows_ofTree hread).descendants_root (Graph.isTree_ofTree hread).descends
  rw [hseen, h.walk_eq_map_methodHead?, List.map_map, List.map_map]
  refine List.map_congr_left fun n _ => ?_
  simp only [Function.comp_apply, Option.map_map]
  rfl

/-- An import, a field and two methods, one of them static. -/
theorem walk_agrees_methodHead?_two : ∃ root table,
    Loaded "import a.B;class A{int x;int f(){return 1;}static void main(String[] s){}}" root table ∧
    (((Graph.ofTree root).descendants (Graph.ofTree root).root).map fun id =>
      ((Graph.ofTree root).methodHead? id).map fun head => (head.name, head.isStatic)) =
    [none, none, none, none, some ("f", false), some ("f", false), some ("f", false),
      some ("main", true), some ("main", true)] := by
  obtain ⟨root, table, h, hany⟩ := Accepted.exists_of_any
    "import a.B;class A{int x;int f(){return 1;}static void main(String[] s){}}"
    (fun root table =>
      (walk (Scope.ofMethod table) root).map
        (fun (sc, _) => sc.map fun sc => (sc.method, sc.isStatic)) =
      [none, none, none, none, some ("f", false), some ("f", false), some ("f", false),
        some ("main", true), some ("main", true)])
    (by decide +kernel)
  have hagrees := congrArg (List.map Prod.fst) (walk_agrees_methodHead? h.loaded)
  rw [List.map_map, List.map_map] at hagrees
  exact ⟨root, table, h.loaded, hagrees.symm.trans (of_decide_eq_true hany)⟩

end MiniJava
