import MiniJava.Proofs.Accepted

/-!
# Sites

`sites` lists the nodes inside the methods of a program, each with its scope and with what is
demanded of it. What is demanded is handed down from a node to its children (`sitesWithin_eq`), and
below a method the scope stays that of the method, so every node of a method is a site there, and
only those are (`exists_mem_sitesWithin_of_method`, `exists_method_of_mem_sitesWithin`).

The checks look at the same nodes. A program passes them if it declares no name twice and neither a
variable nor a site breaks a rule (`analyzeWith_eq_nil_iff`); to find out what the checks say of a
program, one can therefore go from site to site.
-/

namespace MiniJava

theorem exists_mem_zip {α β : Type} {as : List α} {bs : List β} (h : as.length = bs.length) {a : α}
    (ha : a ∈ as) : ∃ b, (a, b) ∈ as.zip bs := by
  obtain ⟨j, hj, rfl⟩ := List.mem_iff_getElem.mp ha
  refine ⟨bs[j], List.mem_iff_getElem.mpr ⟨j, ?_, List.getElem_zip⟩⟩
  rw [List.length_zip]
  exact Nat.lt_min.mpr ⟨hj, h ▸ hj⟩

namespace Scope

variable {sc : Scope} {n : Node}

/-- What is demanded of an expression matters only for calls. -/
theorem typeOf?_eq_of_not_isCall (h : n.isCall = false) (d d' : Ty) :
    sc.typeOf? d n = sc.typeOf? d' n := by
  induction n using Node.induction with
  | step n ih =>
    obtain ⟨i, p, k⟩ := n
    cases k with
    | paren inner => exact ih inner List.mem_cons_self h
    | call => cases h
    | arrayLit elements => cases elements <;> rfl
    | _ => rfl

/-- The first element of an array literal has the type that it has when the type of the other
elements is demanded of it. -/
theorem typeOf?_firstKnown (sc : Scope) (e : Node) (es : List Node) :
    sc.typeOf? (sc.firstKnown (e :: es)) e = sc.typeOf? (sc.firstKnown es) e := by
  cases hcall : e.isCall with
  | true => rw [firstKnown, if_pos hcall]
  | false => exact typeOf?_eq_of_not_isCall hcall _ _

theorem length_argumentDemands (sc : Scope) (receiver : Node) (method : String)
    (arguments : List Node) :
    (sc.argumentDemands receiver method arguments).length = arguments.length := by
  unfold argumentDemands
  split <;> simp

/-- Something is demanded of each child. -/
theorem length_demands (sc : Scope) (d : Ty) (n : Node) :
    (sc.demands d n).length = n.children.length := by
  obtain ⟨i, p, k⟩ := n
  cases k with
  | returning value => cases value <;> rfl
  | ifElse c t e => cases e <;> rfl
  | call receiver method arguments =>
    exact congrArg (· + 1) (sc.length_argumentDemands receiver method arguments)
  | arrayLit elements => exact List.length_replicate
  | program | classDecl | methodDecl | block => exact List.length_map _
  | _ => rfl

/-- Each child stands beside something that is demanded of it. -/
theorem exists_mem_zip_demands (sc : Scope) (d : Ty) {n c : Node} (hc : c ∈ n.children) :
    ∃ d', (c, d') ∈ n.children.zip (sc.demands d n) :=
  exists_mem_zip (sc.length_demands d n).symm hc

end Scope

/-! ## From a node to its children -/

variable {t : SymbolTable} {around : Option Scope} {n : Node} {s : Site}

theorem Node.scopeWithin_of_not_method (t : SymbolTable) (around : Option Scope)
    (h : n.label ≠ .methodDecl) : n.scopeWithin t around = around := by
  obtain ⟨i, p, k⟩ := n
  cases k with
  | methodDecl => exact absurd rfl h
  | _ => rfl

/-- The children of a method stand in its scope, wherever the method does. -/
theorem Node.scopeWithin_scopeWithin (t : SymbolTable) (around : Option Scope) (n : Node) :
    n.scopeWithin t (n.scopeWithin t around) = n.scopeWithin t around := by
  obtain ⟨i, p, k⟩ := n
  cases k <;> rfl

theorem sitesWithin_eq (t : SymbolTable) (n : Node) (around : Option Scope) (d : Ty) :
    sitesWithin t n around d = match n.scopeWithin t around with
      | none => n.children.flatMap fun c => sitesWithin t c none .int
      | some sc => ⟨sc, d, n⟩ ::
        (n.children.zip (sc.demands d n)).flatMap fun (c, d') => sitesWithin t c (some sc) d' := by
  unfold sitesWithin
  rw [Node.fold_eq]
  cases n.scopeWithin t around with
  | none => exact List.flatMap_map ..
  | some sc => simp only [List.zip_map_left, List.flatMap_map, Prod.map, id]

/-- Outside of a method there are the sites of the children. -/
theorem mem_sitesWithin_none {d : Ty} (h : n.scopeWithin t around = none) :
    s ∈ sitesWithin t n around d ↔ ∃ c ∈ n.children, s ∈ sitesWithin t c none .int := by
  rw [sitesWithin_eq, h]
  exact List.mem_flatMap

/-- Inside a method a node is a site, and a child is one with what the node demands of it. -/
theorem mem_sitesWithin_some {d : Ty} {sc : Scope} (h : n.scopeWithin t around = some sc) :
    s ∈ sitesWithin t n around d ↔ s = ⟨sc, d, n⟩ ∨
      ∃ x ∈ n.children.zip (sc.demands d n), s ∈ sitesWithin t x.1 (some sc) x.2 := by
  rw [sitesWithin_eq, h]
  exact List.mem_cons.trans (or_congr_right List.mem_flatMap)

/-- A site stands in its scope, also when it is a method. -/
theorem scopeWithin_of_mem_sitesWithin {d : Ty} (hs : s ∈ sitesWithin t n around d) :
    s.node.scopeWithin t (some s.scope) = some s.scope := by
  induction n using Node.induction generalizing around d with
  | step n ih =>
    cases hscope : n.scopeWithin t around with
    | none =>
      obtain ⟨c, hc, hs⟩ := (mem_sitesWithin_none hscope).mp hs
      exact ih c hc hs
    | some sc =>
      rcases (mem_sitesWithin_some hscope).mp hs with rfl | ⟨x, hx, hs⟩
      · rw [← hscope]
        exact n.scopeWithin_scopeWithin t around
      · exact ih x.1 (List.of_mem_zip hx).1 hs

/-- The sites below a site are sites. -/
theorem sitesWithin_subset {d : Ty} (hs : s ∈ sitesWithin t n around d) :
    sitesWithin t s.node (some s.scope) s.demand ⊆ sitesWithin t n around d := by
  induction n using Node.induction generalizing around d with
  | step n ih =>
    cases hscope : n.scopeWithin t around with
    | none =>
      obtain ⟨c, hc, hs⟩ := (mem_sitesWithin_none hscope).mp hs
      exact fun s' hs' => (mem_sitesWithin_none hscope).mpr ⟨c, hc, ih c hc hs hs'⟩
    | some sc =>
      rcases (mem_sitesWithin_some hscope).mp hs with rfl | ⟨x, hx, hs⟩
      · have hself : n.scopeWithin t (some sc) = some sc := by
          rw [← hscope]
          exact n.scopeWithin_scopeWithin t around
        rw [sitesWithin_eq t n around, hscope, sitesWithin_eq t n (some sc), hself]
        exact List.Subset.refl _
      · exact fun s' hs' =>
          (mem_sitesWithin_some hscope).mpr (.inr ⟨x, hx, ih x.1 (List.of_mem_zip hx).1 hs hs'⟩)

/-! ## Methods -/

/-- Where no method is entered, each node stands in the scope in which the tree does. -/
theorem scope_of_mem_sitesWithin {sc : Scope} {d : Ty}
    (h : ∀ m ∈ n.preorder, m.label ≠ .methodDecl) (hs : s ∈ sitesWithin t n (some sc) d) :
    s.scope = sc ∧ s.node ∈ n.preorder := by
  induction n using Node.induction generalizing d with
  | step n ih =>
    have hscope := n.scopeWithin_of_not_method t (some sc) (h n n.mem_preorder_self)
    rcases (mem_sitesWithin_some hscope).mp hs with rfl | ⟨⟨c, d'⟩, hc, hs⟩
    · exact ⟨rfl, n.mem_preorder_self⟩
    · have hc : c ∈ n.children := (List.of_mem_zip hc).1
      obtain ⟨hsc, hnode⟩ :=
        ih c hc (fun m hm => h m (Node.mem_preorder_of_mem_children hc hm)) hs
      exact ⟨hsc, Node.mem_preorder_of_mem_children hc hnode⟩

theorem exists_mem_sitesWithin {sc : Scope} (d : Ty) (h : ∀ m ∈ n.preorder, m.label ≠ .methodDecl)
    {x : Node} (hx : x ∈ n.preorder) : ∃ d', ⟨sc, d', x⟩ ∈ sitesWithin t n (some sc) d := by
  induction n using Node.induction generalizing d with
  | step n ih =>
    have hscope := n.scopeWithin_of_not_method t (some sc) (h n n.mem_preorder_self)
    rcases Node.mem_preorder.mp hx with rfl | ⟨c, hc, hx⟩
    · exact ⟨d, (mem_sitesWithin_some hscope).mpr (.inl rfl)⟩
    · obtain ⟨d', hd'⟩ := sc.exists_mem_zip_demands d hc
      obtain ⟨d'', hs⟩ :=
        ih c hc d' (fun m hm => h m (Node.mem_preorder_of_mem_children hc hm)) hx
      exact ⟨d'', (mem_sitesWithin_some hscope).mpr (.inr ⟨_, hd', hs⟩)⟩

section Method

variable {m : Node} {head : MethodHead} {params locals body : List Node}

/-- The sites of a method are its nodes, in its scope. -/
theorem of_mem_sitesWithin_method (hm : m.WellFormed)
    (hkind : m.kind = .methodDecl head params locals body) {d : Ty}
    (hs : s ∈ sitesWithin t m around d) :
    s.scope = Scope.ofMethod t head ∧ s.node ∈ m.preorder := by
  have hscope : m.scopeWithin t around = some (Scope.ofMethod t head) := by
    simp only [Node.scopeWithin, hkind]
  rcases (mem_sitesWithin_some hscope).mp hs with rfl | ⟨⟨c, d'⟩, hc, hs⟩
  · exact ⟨rfl, m.mem_preorder_self⟩
  · have hc : c ∈ m.children := (List.of_mem_zip hc).1
    have hbelow := fun x => hm.no_method_below (m := x) (congrArg Kind.label hkind) hc
    obtain ⟨hsc, hnode⟩ := scope_of_mem_sitesWithin hbelow hs
    exact ⟨hsc, Node.mem_preorder_of_mem_children hc hnode⟩

theorem exists_mem_sitesWithin_method (hm : m.WellFormed)
    (hkind : m.kind = .methodDecl head params locals body) (around : Option Scope) (d : Ty)
    {x : Node} (hx : x ∈ m.preorder) :
    ∃ d', ⟨Scope.ofMethod t head, d', x⟩ ∈ sitesWithin t m around d := by
  have hscope : m.scopeWithin t around = some (Scope.ofMethod t head) := by
    simp only [Node.scopeWithin, hkind]
  rcases Node.mem_preorder.mp hx with rfl | ⟨c, hc, hx⟩
  · exact ⟨d, (mem_sitesWithin_some hscope).mpr (.inl rfl)⟩
  · obtain ⟨d', hd'⟩ := (Scope.ofMethod t head).exists_mem_zip_demands d hc
    have hbelow := fun x => hm.no_method_below (m := x) (congrArg Kind.label hkind) hc
    obtain ⟨d'', hs⟩ := exists_mem_sitesWithin (t := t) d' hbelow hx
    exact ⟨d'', (mem_sitesWithin_some hscope).mpr (.inr ⟨_, hd', hs⟩)⟩

end Method

/-- Every site stands in a method. -/
theorem exists_method_of_mem_sitesWithin (hn : n.WellFormed) {d : Ty}
    (hs : s ∈ sitesWithin t n none d) :
    ∃ m ∈ n.preorder, ∃ head params locals body, m.kind = .methodDecl head params locals body ∧
      s.scope = Scope.ofMethod t head ∧ s.node ∈ m.preorder := by
  induction n using Node.induction generalizing d with
  | step n ih =>
    by_cases hlabel : n.label = .methodDecl
    · cases hkind : n.kind with
      | methodDecl head params locals body =>
        obtain ⟨hsc, hnode⟩ := of_mem_sitesWithin_method hn hkind hs
        exact ⟨n, n.mem_preorder_self, head, params, locals, body, hkind, hsc, hnode⟩
      | _ => rw [Node.label, hkind] at hlabel; cases hlabel
    · obtain ⟨c, hc, hs⟩ :=
        (mem_sitesWithin_none (n.scopeWithin_of_not_method t none hlabel)).mp hs
      obtain ⟨m, hm, h⟩ := ih c hc (hn.of_mem_children hc) hs
      exact ⟨m, Node.mem_preorder_of_mem_children hc hm, h⟩

/-- **A child of a site is a site**, of which the parent demands what it does. -/
theorem mem_sites_of_mem_zip (hn : n.WellFormed) (hs : s ∈ sites t n) {x : Node × Ty}
    (hx : x ∈ s.node.children.zip (s.scope.demands s.demand s.node)) :
    ⟨s.scope, x.2, x.1⟩ ∈ sites t n := by
  obtain ⟨m, hm, head, params, locals, body, hkind, -, hnode⟩ :=
    exists_method_of_mem_sitesWithin hn hs
  have hchild : x.1 ∈ s.node.children := (List.of_mem_zip hx).1
  have hlabel : x.1.label ≠ .methodDecl := by
    have hm := hn.of_mem_preorder hm
    rcases Node.mem_preorder.mp hnode with heq | ⟨c, hc, hnode⟩
    · rw [heq] at hchild
      exact hm.no_method_below (congrArg Kind.label hkind) hchild x.1.mem_preorder_self
    · refine hm.no_method_below (congrArg Kind.label hkind) hc ?_
      exact (preorder_infix_of_mem_preorder hnode).subset
        (Node.mem_preorder_of_mem_children hchild x.1.mem_preorder_self)
  refine sitesWithin_subset hs ((mem_sitesWithin_some
    (scopeWithin_of_mem_sitesWithin hs)).mpr (.inr ⟨x, hx, ?_⟩))
  exact (mem_sitesWithin_some (x.1.scopeWithin_of_not_method t _ hlabel)).mpr (.inl rfl)

/-- **Every node of a method is a site**, in the scope of the method. -/
theorem exists_mem_sitesWithin_of_method (hn : n.WellFormed) (d : Ty) {m : Node}
    (hm : m ∈ n.preorder) {head : MethodHead} {params locals body : List Node}
    (hkind : m.kind = .methodDecl head params locals body) {x : Node} (hx : x ∈ m.preorder) :
    ∃ d', ⟨Scope.ofMethod t head, d', x⟩ ∈ sitesWithin t n none d := by
  induction n using Node.induction generalizing d with
  | step n ih =>
    rcases Node.mem_preorder.mp hm with rfl | ⟨c, hc, hm⟩
    · exact exists_mem_sitesWithin_method hn hkind none d hx
    · have hlabel : n.label ≠ .methodDecl := fun hlabel =>
        hn.no_method_below hlabel hc hm (congrArg Kind.label hkind)
      obtain ⟨d', hs⟩ := ih c hc (hn.of_mem_children hc) .int hm
      exact ⟨d', (mem_sitesWithin_none (n.scopeWithin_of_not_method t none hlabel)).mpr
        ⟨c, hc, hs⟩⟩

/-! ## The walk of the checks -/

section Walk

variable {scopeOf : ScopeOf} {root : Node}

theorem withScopes_of_no_method {last : Option Scope} {ns : List Node}
    (h : ∀ m ∈ ns, m.label ≠ .methodDecl) :
    withScopes scopeOf last ns = ns.map (last, ·) := by
  induction ns with
  | nil => rfl
  | cons n ns ih =>
    obtain ⟨hn, hns⟩ := List.forall_mem_cons.mp h
    rw [withScopes_cons_other scopeOf last hn, ih hns, List.map_cons]

/-- What holds at each node of the walks through some trees holds at each of a walk through all. -/
theorem forall_withScopes_flatMap {P : Option Scope × Node → Prop} {ns : List Node}
    (h : ∀ n ∈ ns, ∀ last, ∀ x ∈ withScopes scopeOf last n.preorder, P x) (last : Option Scope) :
    ∀ x ∈ withScopes scopeOf last (ns.flatMap Node.preorder), P x := by
  induction ns generalizing last with
  | nil => exact nofun
  | cons n ns ih =>
    obtain ⟨hn, hns⟩ := List.forall_mem_cons.mp h
    obtain ⟨last', happend⟩ :=
      exists_withScopes_append scopeOf last n.preorder (ns.flatMap Node.preorder)
    rw [List.flatMap_cons, happend]
    exact List.forall_mem_append.mpr ⟨hn last, ih hns last'⟩

/-- A walk comes by each node. -/
theorem map_snd_withScopes (scopeOf : ScopeOf) (last : Option Scope) (ns : List Node) :
    (withScopes scopeOf last ns).map Prod.snd = ns := by
  induction ns generalizing last with
  | nil => rfl
  | cons n ns ih => exact congrArg (n :: ·) (ih _)

/-- Nodes that stand outside of methods. -/
def Label.isOuter : Label → Bool
  | program | importDecl | classDecl | varDecl => true
  | _ => false

/-- A node of a walk stands outside of the methods, or in one and has its scope beside it. -/
theorem isOuter_or_exists_method (scopeOf : ScopeOf) (hroot : root.WellFormed)
    (hlabel : root.label.isOuter = true) (last : Option Scope) :
    ∀ x ∈ withScopes scopeOf last root.preorder,
      x.2.label.isOuter = true ∨ ∃ m ∈ root.preorder, ∃ head params locals body,
        m.kind = .methodDecl head params locals body ∧ x.2 ∈ m.preorder ∧
          x.1 = some (scopeOf head) := by
  induction root using Node.induction generalizing last with
  | step n ih =>
    have hother : n.label ≠ .methodDecl := fun h => nomatch h ▸ hlabel
    have hsort : ∀ c ∈ n.children, c.label.isOuter = true ∨ c.label = .methodDecl := by
      have hfits := hroot.fits
      intro c hc
      obtain ⟨i, p, k⟩ := n
      cases k with
      | program items => rcases hfits c hc with h | h <;> exact .inl (h ▸ rfl)
      | classDecl name superclass fields methods =>
        rcases List.mem_append.mp hc with hc | hc
        · exact .inl (hfits.2.1 c hc ▸ rfl)
        · exact .inr (hfits.2.2 c hc)
      | importDecl | varDecl => cases hc
      | _ => cases hlabel
    rw [Node.preorder_eq, withScopes_cons_other scopeOf last hother]
    refine List.forall_mem_cons.mpr ⟨.inl hlabel, ?_⟩
    refine forall_withScopes_flatMap (fun c hc last x hx => ?_) last
    have inside {m : Node} (hm : m ∈ c.preorder) :
        m ∈ n :: n.children.flatMap Node.preorder :=
      List.mem_cons_of_mem n (List.mem_flatMap.mpr ⟨c, hc, hm⟩)
    rcases hsort c hc with hsort | hsort
    · refine (ih c hc (hroot.of_mem_children hc) hsort last x hx).imp_right ?_
      rintro ⟨m, hm, h⟩
      exact ⟨m, inside hm, h⟩
    · cases hkind : c.kind with
      | methodDecl head params locals body =>
        have hbelow : ∀ y ∈ c.children.flatMap Node.preorder, y.label ≠ .methodDecl := by
          intro y hy
          obtain ⟨d, hd, hy⟩ := List.mem_flatMap.mp hy
          exact (hroot.of_mem_children hc).no_method_below hsort hd hy
        rw [Node.preorder_eq, withScopes_cons_method scopeOf last hkind,
          withScopes_of_no_method hbelow] at hx
        refine .inr ⟨c, inside c.mem_preorder_self, head, params, locals, body, hkind, ?_⟩
        rw [Node.preorder_eq c]
        rcases List.mem_cons.mp hx with rfl | hx
        · exact ⟨List.mem_cons_self, rfl⟩
        · obtain ⟨y, hy, rfl⟩ := List.mem_map.mp hx
          exact ⟨List.mem_cons_of_mem _ hy, rfl⟩
      | _ => rw [Node.label, hkind] at hsort; cases hsort

end Walk

/-! ## The checks -/

/-- In a scope, a node breaks no rule by itself. -/
structure Scope.Passes (sc : Scope) (n : Node) : Prop where
  structured : checkStructureAt sc.table (some sc, n) = []
  types : sc.checkTypesAt n = []
  names : sc.checkNamesAt n = []

/-- Outside of methods only variables can break a rule, and no scope matters for it. -/
theorem checkStructureAt_of_isOuter (t : SymbolTable) {n : Node} (h : n.label.isOuter = true)
    (hdecl : n.label = .varDecl → checkStructureAt t (none, n) = []) (sc : Option Scope) :
    checkStructureAt t (sc, n) = [] := by
  obtain ⟨i, p, k⟩ := n
  cases k with
  | varDecl name type => exact hdecl rfl
  | program | importDecl | classDecl => rfl
  | _ => cases h

theorem Scope.checkAt_of_isOuter (sc : Scope) {n : Node} (h : n.label.isOuter = true) :
    sc.checkTypesAt n = [] ∧ sc.checkNamesAt n = [] := by
  obtain ⟨i, p, k⟩ := n
  cases k with
  | program | importDecl | classDecl | varDecl => exact ⟨rfl, rfl⟩
  | _ => cases h

/-- **A program passes the checks if it declares no name twice and neither a variable nor a site
breaks a rule.** The scopes of the checks may differ from those of the sites in what they know of
the demands on calls. -/
theorem analyzeWith_eq_nil_iff {root : Node} (hroot : root.WellFormed)
    (hlabel : root.label = .program) (F : Scope → Scope) (hF : ∀ sc, (F sc).table = sc.table) :
    analyzeWith (fun head => F (.ofMethod t head)) t root = [] ↔
      checkDuplicates root = [] ∧
      (∀ n ∈ root.preorder, n.label = .varDecl → checkStructureAt t (none, n) = []) ∧
      ∀ s ∈ sites t root, (F s.scope).Passes s.node := by
  have htable (head : MethodHead) : (F (.ofMethod t head)).table = t := hF _
  unfold analyzeWith checkStructure checkTypes checkNames
  simp only [List.append_eq_nil_iff, List.flatMap_eq_nil_iff]
  refine ⟨?_, ?_⟩
  · rintro ⟨⟨⟨hduplicates, hstructure⟩, htypes⟩, hnames⟩
    refine ⟨hduplicates, fun n hn hdecl => ?_, fun s hs => ?_⟩
    · rw [← map_snd_withScopes (fun head => F (.ofMethod t head)) none root.preorder] at hn
      obtain ⟨⟨sc, n⟩, hmem, rfl⟩ := List.mem_map.mp hn
      have hcheck := hstructure _ hmem
      obtain ⟨i, p, k⟩ := n
      cases k with
      | varDecl name type => exact hcheck
      | _ => cases hdecl
    · obtain ⟨m, hm, head, params, locals, body, hkind, hscope, hnode⟩ :=
        exists_method_of_mem_sitesWithin hroot hs
      have hwalk := mem_walk_of_method (fun head => F (.ofMethod t head)) hroot hm hkind hnode
      rw [hscope]
      refine ⟨?_, htypes _ hwalk, hnames _ hwalk⟩
      rw [htable]
      exact hstructure _ hwalk
  · rintro ⟨hduplicates, hdeclared, hsites⟩
    have hwalk := isOuter_or_exists_method (fun head => F (.ofMethod t head)) hroot
      (hlabel ▸ rfl) none
    have hpasses {m x : Node} {head : MethodHead} {params locals body : List Node}
        (hm : m ∈ root.preorder) (hkind : m.kind = .methodDecl head params locals body)
        (hx : x ∈ m.preorder) : (F (.ofMethod t head)).Passes x := by
      obtain ⟨d, hs⟩ := exists_mem_sitesWithin_of_method hroot .int hm hkind hx
      exact hsites _ hs
    refine ⟨⟨⟨hduplicates, ?_⟩, ?_⟩, ?_⟩ <;> rintro ⟨sc, x⟩ hx <;>
      rcases hwalk _ hx with houter | ⟨m, hm, head, params, locals, body, hkind, hnode, hsc⟩
    · have hmem : x ∈ root.preorder :=
        map_snd_withScopes _ none root.preorder ▸ List.mem_map_of_mem (f := Prod.snd) hx
      exact checkStructureAt_of_isOuter t houter (hdeclared x hmem) sc
    · obtain rfl : sc = _ := hsc
      have h := (hpasses hm hkind hnode).structured
      rwa [htable] at h
    · cases sc with
      | none => rfl
      | some sc => exact (sc.checkAt_of_isOuter houter).1
    · obtain rfl : sc = _ := hsc
      exact (hpasses hm hkind hnode).types
    · cases sc with
      | none => rfl
      | some sc => exact (sc.checkAt_of_isOuter houter).2
    · obtain rfl : sc = _ := hsc
      exact (hpasses hm hkind hnode).names

end MiniJava
