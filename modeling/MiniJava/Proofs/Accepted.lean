import MiniJava.Compile
import MiniJava.Proofs.Grammar.Shape
import MiniJava.Proofs.Methods

/-!
# Accepted programs

A program is accepted if it parses, has a symbol table and passes all checks. What the checks say of
a method is collected in `Scope.Approves`: its tree is well-formed, and no node in it breaks a rule
in the scope of that method. This holds of every method (`Accepted.approves`), because a walk in
preorder has the scope of a method beside each of its nodes (`mem_walk_of_method`).
-/

namespace MiniJava

/-- The text spells this tree, which has this symbol table and breaks no rule. -/
structure Accepted (source : String) (root : Node) (table : SymbolTable) : Prop where
  tree : ∃ raw, parse source = .ok raw ∧ Node.ofRaw? raw = .ok root
  declared : SymbolTable.ofTree? root = .ok table
  checked : analyze table root = []

/-- The tree is well-formed, and none of its nodes breaks a rule in the scope. -/
structure Scope.Approves (sc : Scope) (n : Node) : Prop where
  wellFormed : n.WellFormed
  types : ∀ m ∈ n.preorder, sc.checkTypesAt m = []
  names : ∀ m ∈ n.preorder, sc.checkNamesAt m = []
  structured : ∀ m ∈ n.preorder, checkStructureAt sc.table (some sc, m) = []

namespace Scope.Approves

variable {sc : Scope} {n m : Node}

theorem of_mem_preorder (h : sc.Approves n) (hm : m ∈ n.preorder)
    (hbelow : m.preorder ⊆ n.preorder) : sc.Approves m :=
  ⟨h.wellFormed.of_mem_preorder hm, fun x hx => h.types x (hbelow hx),
    fun x hx => h.names x (hbelow hx), fun x hx => h.structured x (hbelow hx)⟩

theorem child (h : sc.Approves n) (hm : m ∈ n.children) : sc.Approves m :=
  h.of_mem_preorder (Node.mem_preorder_of_mem_children hm m.mem_preorder_self)
    (Node.preorder_infix_of_mem_children hm).subset

theorem typesHere (h : sc.Approves n) : sc.checkTypesAt n = [] := h.types n n.mem_preorder_self

theorem namesHere (h : sc.Approves n) : sc.checkNamesAt n = [] := h.names n n.mem_preorder_self

theorem structuredHere (h : sc.Approves n) : checkStructureAt sc.table (some sc, n) = [] :=
  h.structured n n.mem_preorder_self

/-- What stands in the body of a method is a statement without methods, and passes the checks. -/
theorem statement (h : sc.Approves n) {head : MethodHead} {params locals body : List Node}
    (hkind : n.kind = .methodDecl head params locals body) (hm : m ∈ body) :
    sc.Approves m ∧ m.IsStmt ∧ ∀ x ∈ m.preorder, x.label ≠ .methodDecl := by
  have hchild : m ∈ n.children := by
    rw [Node.children, hkind]
    exact List.mem_append_right _ hm
  have hfits := h.wellFormed.fits
  rw [hkind] at hfits
  exact ⟨h.child hchild, hfits.2.2 m hm, fun x hx =>
    h.wellFormed.no_method_below (congrArg Kind.label hkind) hchild hx⟩

end Scope.Approves

/-! ## Walking through methods -/

section Walk

variable (scopeOf : ScopeOf)

theorem withScopes_cons_method (last : Option Scope) {n : Node} {head : MethodHead}
    {params locals body : List Node} (hkind : n.kind = .methodDecl head params locals body)
    (ns : List Node) :
    withScopes scopeOf last (n :: ns) =
      (some (scopeOf head), n) :: withScopes scopeOf (some (scopeOf head)) ns := by
  simp only [withScopes, hkind]

theorem withScopes_cons_other (last : Option Scope) {n : Node} (h : n.label ≠ .methodDecl)
    (ns : List Node) :
    withScopes scopeOf last (n :: ns) = (last, n) :: withScopes scopeOf last ns := by
  obtain ⟨i, p, k⟩ := n
  cases k with
  | methodDecl => exact absurd rfl h
  | _ => rfl

/-- A walk in two parts: the second starts in some scope that the first ends in. -/
theorem exists_withScopes_append (last : Option Scope) (ns ms : List Node) :
    ∃ last', withScopes scopeOf last (ns ++ ms) =
      withScopes scopeOf last ns ++ withScopes scopeOf last' ms := by
  induction ns generalizing last with
  | nil => exact ⟨last, rfl⟩
  | cons n ns ih =>
    by_cases hlabel : n.label = .methodDecl
    · obtain ⟨i, p, k⟩ := n
      cases k with
      | methodDecl head params locals body =>
        obtain ⟨last', h⟩ := ih (some (scopeOf head))
        rw [List.cons_append, withScopes_cons_method scopeOf last rfl,
          withScopes_cons_method scopeOf last rfl, h]
        exact ⟨last', rfl⟩
      | _ => cases hlabel
    · obtain ⟨last', h⟩ := ih last
      rw [List.cons_append, withScopes_cons_other scopeOf last hlabel,
        withScopes_cons_other scopeOf last hlabel, h]
      exact ⟨last', rfl⟩

/-- Where no method is entered, all nodes have the scope in front of them. -/
theorem mem_withScopes_of_no_method {last : Option Scope} {ns : List Node} {n : Node}
    (h : ∀ m ∈ ns, m.label ≠ .methodDecl) (hn : n ∈ ns) :
    (last, n) ∈ withScopes scopeOf last ns := by
  induction ns with
  | nil => cases hn
  | cons m ms ih =>
    obtain ⟨hm, hms⟩ := List.forall_mem_cons.mp h
    rw [withScopes_cons_other scopeOf last hm]
    rcases List.mem_cons.mp hn with rfl | hn
    · exact List.mem_cons_self
    · exact List.mem_cons_of_mem _ (ih hms hn)

theorem preorder_infix_of_mem_preorder {n m : Node} (h : m ∈ n.preorder) :
    m.preorder <:+: n.preorder := by
  induction n using Node.induction with
  | step n ih =>
    rcases Node.mem_preorder.mp h with rfl | ⟨c, hc, hm⟩
    · exact List.infix_refl _
    · exact (ih c hc hm).trans (Node.preorder_infix_of_mem_children hc)

/-- A walk has the scope of a method beside each of its nodes. -/
theorem mem_walk_of_method {root m n : Node} (hroot : root.WellFormed) {head : MethodHead}
    {params locals body : List Node} (hm : m ∈ root.preorder)
    (hkind : m.kind = .methodDecl head params locals body) (hn : n ∈ m.preorder) :
    (some (scopeOf head), n) ∈ walk scopeOf root := by
  obtain ⟨before, after, hroot'⟩ := preorder_infix_of_mem_preorder hm
  have hwf := hroot.of_mem_preorder hm
  unfold walk
  rw [← hroot', List.append_assoc]
  obtain ⟨last, h⟩ := exists_withScopes_append scopeOf none before (m.preorder ++ after)
  obtain ⟨last', h'⟩ := exists_withScopes_append scopeOf last m.preorder after
  rw [h, h']
  refine List.mem_append_right _ (List.mem_append_left _ ?_)
  rw [Node.preorder_eq] at hn ⊢
  rw [withScopes_cons_method scopeOf last hkind]
  rcases List.mem_cons.mp hn with rfl | hn
  · exact List.mem_cons_self
  · refine List.mem_cons_of_mem _ (mem_withScopes_of_no_method scopeOf ?_ hn)
    intro x hx
    obtain ⟨c, hc, hx⟩ := List.mem_flatMap.mp hx
    exact hwf.no_method_below (congrArg Kind.label hkind) hc hx

end Walk

/-- Where the checks find nothing wrong, they find nothing wrong with a method in its own scope. -/
theorem approves_of_analyze {table : SymbolTable} {root m : Node} (hroot : root.WellFormed)
    (hchecked : analyze table root = []) {head : MethodHead} {params locals body : List Node}
    (hm : m ∈ root.preorder) (hkind : m.kind = .methodDecl head params locals body) :
    (Scope.ofMethod table head).Approves m := by
  unfold analyze analyzeWith at hchecked
  simp only [List.append_eq_nil_iff] at hchecked
  obtain ⟨⟨⟨-, hstructure⟩, htypes⟩, hnames⟩ := hchecked
  have hwalk {n : Node} (hn : n ∈ m.preorder) :=
    mem_walk_of_method (Scope.ofMethod table) hroot hm hkind hn
  refine ⟨hroot.of_mem_preorder hm, fun n hn => ?_, fun n hn => ?_, fun n hn => ?_⟩
  · exact List.flatMap_eq_nil_iff.mp htypes _ (hwalk hn)
  · exact List.flatMap_eq_nil_iff.mp hnames _ (hwalk hn)
  · exact List.flatMap_eq_nil_iff.mp hstructure _ (hwalk hn)

/-! ## The class -/

namespace SymbolTable

variable {ns : List Node} {imports imports' : List String} {c c' : ClassParts}

theorem eq_of_topLevel (h : topLevel ns imports (some c) = .ok (imports', c')) : c' = c := by
  induction ns generalizing imports with
  | nil =>
    cases h
    rfl
  | cons n ns ih =>
    unfold topLevel at h
    split at h
    · cases h
    · rename_i hc
      cases hc
    · cases h
    · rename_i hc
      cases hc
    · exact ih h

/-- The class that is found is the first among the nodes. -/
theorem find?_of_topLevel (h : topLevel ns imports none = .ok (imports', c)) :
    ∃ n, ns.find? (·.kind.label = .classDecl) = some n ∧
      n.kind = .classDecl c.name c.superclass c.fields c.methods := by
  induction ns generalizing imports with
  | nil => cases h
  | cons n ns ih =>
    unfold topLevel at h
    split at h
    · cases h
    · rename_i hkind _
      rw [List.find?_cons_of_neg (by simp [hkind, Kind.label])]
      exact ih h
    · cases h
    · rename_i hkind _
      obtain rfl := eq_of_topLevel h
      exact ⟨n, List.find?_cons_of_pos (by simp [hkind, Kind.label]), hkind⟩
    · rename_i hother
      rw [List.find?_cons_of_neg]
      · exact ih h
      · obtain ⟨i, p, k⟩ := n
        cases k with
        | classDecl => exact absurd rfl (hother _ _ _ _ rfl)
        | _ => simp [Kind.label]

/-- The symbol table has what the first class declares. -/
theorem ofTree?_eq_ok {root : Node} {table : SymbolTable} (h : ofTree? root = .ok table) :
    ∃ n fields methods, root.children.find? (·.kind.label = .classDecl) = some n ∧
      n.kind = .classDecl table.className table.superclass fields methods ∧
      table.signatures = methods.filterMap signatureOf? := by
  unfold ofTree? at h
  cases htop : topLevel root.children [] none with
  | error e => rw [htop] at h; cases h
  | ok r =>
    obtain ⟨imports, c⟩ := r
    obtain ⟨n, hn, hkind⟩ := find?_of_topLevel htop
    refine ⟨n, c.fields, c.methods, hn, ?_⟩
    rw [htop] at h
    simp only [bind, Except.bind] at h
    repeat' split at h
    all_goals cases h
    all_goals exact ⟨hkind, rfl⟩

end SymbolTable

theorem Node.mem_children_of_mem_items {root c : Node} (h : c ∈ root.items) :
    c ∈ root.children := by
  obtain ⟨i, p, k⟩ := root
  cases k with
  | program items => exact h
  | _ => cases h

/-- The methods of a program are among its nodes. -/
theorem Node.mem_preorder_of_mem_methods {root m : Node} (h : m ∈ root.methods) :
    m ∈ root.preorder ∧ (root.WellFormed → m.label = .methodDecl) := by
  unfold methods at h
  cases hclass : root.class? with
  | none => rw [hclass] at h; cases h
  | some c =>
    have hc := mem_children_of_mem_items (List.mem_of_find?_eq_some hclass)
    simp only [hclass, Option.map_some] at h
    cases hkind : c.kind with
    | classDecl name superclass fields methods =>
      rw [hkind] at h
      have hm : m ∈ c.children := by
        rw [children, hkind]
        exact List.mem_append_right _ h
      refine ⟨mem_preorder_of_mem_children hc (mem_preorder_of_mem_children hm m.mem_preorder_self),
        fun hroot => ?_⟩
      have hfits := (hroot.of_mem_children hc).fits
      rw [hkind] at hfits
      exact hfits.2.2 m h
    | _ => rw [hkind] at h; cases h

/-- The text spells this tree, which has this symbol table. -/
structure Loaded (source : String) (root : Node) (table : SymbolTable) : Prop where
  tree : ∃ raw, parse source = .ok raw ∧ Node.ofRaw? raw = .ok root
  declared : SymbolTable.ofTree? root = .ok table

namespace Loaded

variable {source : String} {root : Node} {table : SymbolTable}

theorem wellFormed (h : Loaded source root table) : root.WellFormed := by
  obtain ⟨raw, hparse, hread⟩ := h.tree
  exact (wellFormed_of_parse hparse hread).1

theorem label_eq (h : Loaded source root table) : root.label = .program := by
  obtain ⟨raw, hparse, hread⟩ := h.tree
  exact (wellFormed_of_parse hparse hread).2

/-- The first class of the program declares what the symbol table has. -/
theorem exists_class? (h : Loaded source root table) :
    ∃ n fields, root.class? = some n ∧
      n.kind = .classDecl table.className table.superclass fields root.methods ∧
        table.signatures = root.methods.filterMap SymbolTable.signatureOf? := by
  obtain ⟨n, fields, methods, hn, hkind, hsignatures⟩ := SymbolTable.ofTree?_eq_ok h.declared
  have hclass : root.class? = some n := by
    have hprogram := h.label_eq
    obtain ⟨i, p, k⟩ := root
    cases k with
    | program items => exact hn
    | _ => cases hprogram
  have hmethods : root.methods = methods := by
    simp only [Node.methods, hclass, Option.map_some, hkind]
  rw [hmethods]
  exact ⟨n, fields, hclass, hkind, hsignatures⟩

end Loaded

namespace Accepted

variable {source : String} {root : Node} {table : SymbolTable}

theorem loaded (h : Accepted source root table) : Loaded source root table := ⟨h.tree, h.declared⟩

theorem wellFormed (h : Accepted source root table) : root.WellFormed := h.loaded.wellFormed

/-- The class of the program declares what the symbol table has. -/
theorem exists_class (h : Accepted source root table) :
    ∃ n ∈ root.children, ∃ fields,
      n.kind = .classDecl table.className table.superclass fields root.methods ∧
        table.signatures = root.methods.filterMap SymbolTable.signatureOf? := by
  obtain ⟨n, fields, hclass, hkind, hsignatures⟩ := h.loaded.exists_class?
  exact ⟨n, Node.mem_children_of_mem_items (List.mem_of_find?_eq_some hclass), fields, hkind,
    hsignatures⟩

/-- The class of the program is named by an identifier. -/
theorem isIdentifier_className (h : Accepted source root table) :
    IsIdentifier table.className := by
  obtain ⟨n, hn, fields, hkind, -⟩ := h.exists_class
  have hfits := (h.wellFormed.of_mem_children hn).fits
  rw [hkind] at hfits
  exact hfits.1

/-- The checks find nothing wrong with a method in its own scope. -/
theorem approves_of_mem_preorder (h : Accepted source root table) {m : Node} {head : MethodHead}
    {params locals body : List Node} (hm : m ∈ root.preorder)
    (hkind : m.kind = .methodDecl head params locals body) :
    (Scope.ofMethod table head).Approves m :=
  approves_of_analyze h.wellFormed h.checked hm hkind

/-- **Every method of an accepted program passes all checks in its own scope.** -/
theorem approves (h : Accepted source root table) {m : Node} (hm : m ∈ root.methods) :
    ∃ head params locals body, m.kind = .methodDecl head params locals body ∧
      (Scope.ofMethod table head).Approves m := by
  obtain ⟨hpre, hlabel⟩ := Node.mem_preorder_of_mem_methods hm
  have hlabel := hlabel h.wellFormed
  cases hkind : m.kind with
  | methodDecl head params locals body =>
    exact ⟨head, params, locals, body, rfl, h.approves_of_mem_preorder hpre hkind⟩
  | _ => rw [Node.label, hkind] at hlabel; cases hlabel

/-! ## Deciding -/

/-- The tree and the symbol table of a text that is accepted. -/
def tree? (source : String) : Option (Node × SymbolTable) := do
  let raw ← (parse source).toOption
  let root ← (Node.ofRaw? raw).toOption
  let table ← (SymbolTable.ofTree? root).toOption
  if (analyze table root).isEmpty then some (root, table) else none

theorem of_tree? (h : tree? source = some (root, table)) : Accepted source root table := by
  have eq_ok {ε α : Type} {x : Except ε α} {a : α} (hx : x.toOption = some a) : x = .ok a := by
    cases x with
    | error e => cases hx
    | ok b =>
      cases hx
      rfl
  unfold tree? at h
  simp only [Option.bind_eq_bind, Option.bind_eq_some_iff] at h
  obtain ⟨raw, hraw, root', hroot, table', htable, h⟩ := h
  by_cases hchecked : (analyze table' root').isEmpty = true
  · rw [if_pos hchecked] at h
    cases h
    exact ⟨⟨raw, eq_ok hraw, eq_ok hroot⟩, eq_ok htable, List.isEmpty_iff.mp hchecked⟩
  · rw [if_neg hchecked] at h
    cases h

/-- A text whose tree and symbol table pass a test is accepted, and they do. -/
theorem exists_of_any (source : String) (p : Node → SymbolTable → Bool)
    (h : ((tree? source).any fun t => p t.1 t.2) = true) :
    ∃ root table, Accepted source root table ∧ p root table = true := by
  obtain ⟨⟨root, table⟩, htree, hp⟩ := Option.any_eq_true _ _ |>.mp h
  exact ⟨root, table, of_tree? htree, hp⟩

end Accepted

end MiniJava
