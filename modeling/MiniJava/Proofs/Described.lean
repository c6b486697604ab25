import MiniJava.Proofs.Declared
import MiniJava.Proofs.Stages

/-!
# What the symbol table describes

Of several methods with one name the symbol table finds the first, and what it says of it is what
its declaration says (`Loaded.describes_of_find?`). A method is reported as declared twice unless
all methods have different names (`Loaded.noDuplicateMethod_iff`), so without such a report the
symbol table is faithful to every declaration (`describes_of_loadText`). This needs no other check.

The reports come from a walk through the whole tree. It meets one class, since the symbol table
refuses a second, and all methods stand in it: a class stands only below a program, and a method
only below a class (`Node.WellFormed.label_of_mem_children`).
-/

namespace MiniJava

/-! ## Where classes and methods stand -/

namespace Node

variable {n m c : Node}

theorem label_ne_of_isStmt_or_isExpr (h : n.IsStmt ∨ n.IsExpr) :
    n.label ≠ .program ∧ n.label ≠ .classDecl ∧ n.label ≠ .methodDecl := by
  have hne {l : Label} (hl : (l.isStatement || l.isExpression) = false) : n.label ≠ l := by
    rintro rfl
    exact Bool.false_ne_true (hl.symm.trans ((Bool.or_eq_true _ _).mpr h))
  exact ⟨hne rfl, hne rfl, hne rfl⟩

/-- A class stands below a program, a method below a class, and a program below nothing. -/
theorem WellFormed.label_of_mem_children (h : n.WellFormed) (hc : c ∈ n.children) :
    c.label ≠ .program ∧ (c.label = .classDecl → n.label = .program) ∧
      (c.label = .methodDecl → n.label = .classDecl) := by
  have other (hlabel : c.label ≠ .program ∧ c.label ≠ .classDecl ∧ c.label ≠ .methodDecl) :
      c.label ≠ .program ∧ (c.label = .classDecl → n.label = .program) ∧
        (c.label = .methodDecl → n.label = .classDecl) :=
    ⟨hlabel.1, fun h => absurd h hlabel.2.1, fun h => absurd h hlabel.2.2⟩
  by_cases hn : n.IsStmt ∨ n.IsExpr
  · refine other (label_ne_of_isStmt_or_isExpr ?_)
    rcases hn with hn | hn
    · exact h.isStmt_or_isExpr_of_mem_children hn hc
    · exact .inr (h.isExpr_of_mem_children hn hc)
  · obtain ⟨i, p, k⟩ := n
    have hfits := h.fits
    cases k with
    | program items =>
      have hitem : c.label ≠ .program ∧ c.label ≠ .methodDecl := by
        rcases hfits c hc with hlabel | hlabel <;> rw [hlabel] <;> decide
      exact ⟨hitem.1, fun _ => rfl, fun h => absurd h hitem.2⟩
    | classDecl name superclass fields methods =>
      rcases List.mem_append.mp hc with hc | hc
      · exact other (by rw [hfits.2.1 c hc]; decide)
      · have hmethod : c.label ≠ .program ∧ c.label ≠ .classDecl := by
          rw [hfits.2.2 c hc]
          decide
        exact ⟨hmethod.1, fun h => absurd h hmethod.2, fun _ => rfl⟩
    | methodDecl head params locals body =>
      obtain ⟨hparams, hlocals, hbody⟩ := hfits
      simp only [children, Kind.children, List.mem_append] at hc
      rcases hc with (hc | hc) | hc
      · exact other (by rw [hparams c hc]; decide)
      · exact other (by rw [hlocals c hc]; decide)
      · exact other (label_ne_of_isStmt_or_isExpr (.inl (hbody c hc)))
    | importDecl | varDecl | param => cases hc
    | assign | arrayAssign | returning | ifElse | whileLoop | block | exprStmt =>
      exact absurd (.inl rfl) hn
    | _ => exact absurd (.inr rfl) hn

end Node

namespace SymbolTable

variable {ns : List Node} {imports imports' : List String} {c c' : ClassParts}

/-- Behind a class no other is accepted. -/
theorem label_ne_of_topLevel (h : topLevel ns imports (some c) = .ok (imports', c')) {n : Node}
    (hn : n ∈ ns) : n.label ≠ .classDecl := by
  induction ns generalizing imports with
  | nil => cases hn
  | cons m ms ih =>
    obtain ⟨i, p, k⟩ := m
    cases k with
    | importDecl | classDecl => cases h
    | _ =>
      rcases List.mem_cons.mp hn with rfl | hn
      · exact fun hlabel => by cases hlabel
      · exact ih h hn

/-- The first class is the only one. -/
theorem find?_eq_of_topLevel (h : topLevel ns imports none = .ok (imports', c)) {n : Node}
    (hn : n ∈ ns) (hlabel : n.label = .classDecl) :
    ns.find? (·.kind.label = .classDecl) = some n := by
  induction ns generalizing imports with
  | nil => cases hn
  | cons m ms ih =>
    obtain ⟨i, p, k⟩ := m
    cases k with
    | classDecl =>
      rcases List.mem_cons.mp hn with rfl | hn
      · rfl
      · exact absurd hlabel (label_ne_of_topLevel h hn)
    | _ =>
      rcases List.mem_cons.mp hn with rfl | hn
      · cases hlabel
      · exact ih h hn

end SymbolTable

namespace Loaded

variable {source : String} {root n : Node} {table : SymbolTable}

/-- The class of a program is its only class. -/
theorem class?_eq (h : Loaded source root table) (hpre : n ∈ root.preorder)
    (hlabel : n.label = .classDecl) : root.class? = some n := by
  rcases Node.eq_or_exists_parent hpre with rfl | ⟨q, hq, hn⟩
  · cases hlabel.symm.trans h.label_eq
  · have hq' := ((h.wellFormed.of_mem_preorder hq).label_of_mem_children hn).2.1 hlabel
    rcases Node.eq_or_exists_parent hq with rfl | ⟨r, hr, hq⟩
    · have htop := h.declared
      unfold SymbolTable.ofTree? at htop
      obtain ⟨⟨imports, c⟩, htop, -⟩ := bind_eq_ok.mp htop
      have hfind := SymbolTable.find?_eq_of_topLevel htop hn hlabel
      obtain ⟨i, p, k⟩ := q
      cases k with
      | program items => exact hfind
      | _ => cases hq'
    · exact absurd hq' ((h.wellFormed.of_mem_preorder hr).label_of_mem_children hq).1

/-- All methods of a program are methods of its class. -/
theorem mem_methods (h : Loaded source root table) (hpre : n ∈ root.preorder)
    (hlabel : n.label = .methodDecl) : n ∈ root.methods := by
  rcases Node.eq_or_exists_parent hpre with rfl | ⟨q, hq, hn⟩
  · cases hlabel.symm.trans h.label_eq
  · have hq' := ((h.wellFormed.of_mem_preorder hq).label_of_mem_children hn).2.2 hlabel
    have hclass := h.class?_eq hq hq'
    have hfits := (h.wellFormed.of_mem_preorder hq).fits
    obtain ⟨i, p, k⟩ := q
    cases k with
    | classDecl name superclass fields methods =>
      rcases List.mem_append.mp hn with hn | hn
      · cases hlabel.symm.trans (hfits.2.1 n hn)
      · simp only [Node.methods, hclass, Option.map_some]
        exact hn
    | _ => cases hq'

end Loaded

/-! ## Methods reported as declared twice -/

/-- None of the errors is a method declared twice. -/
def NoDuplicateMethod (es : List SemanticError) : Prop :=
  ∀ e ∈ es, ∀ name, e.violation ≠ .duplicateMethod name

namespace NoDuplicateMethod

variable {es es' : List SemanticError} {ns : List Node}

theorem append_iff : NoDuplicateMethod (es ++ es') ↔ NoDuplicateMethod es ∧ NoDuplicateMethod es' :=
  List.forall_mem_append

theorem cons_iff {e : SemanticError} (h : ∀ name, e.violation ≠ .duplicateMethod name) :
    NoDuplicateMethod (e :: es) ↔ NoDuplicateMethod es :=
  List.forall_mem_cons.trans (and_iff_right h)

theorem duplicatesAmong (violation : String → Violation)
    (h : ∀ name name', violation name ≠ .duplicateMethod name') (ns : List Node) :
    NoDuplicateMethod (duplicatesAmong violation ns) :=
  List.forall_mem_map.mpr fun d _ => h d.1

theorem duplicatesAmong_method_iff :
    NoDuplicateMethod (MiniJava.duplicatesAmong .duplicateMethod ns) ↔
      (declaredNames ns).Nodup := by
  rw [← duplicatesAmong_eq_nil_iff .duplicateMethod, List.eq_nil_iff_forall_not_mem]
  refine forall₂_congr fun e he => ?_
  obtain ⟨d, -, rfl⟩ := List.mem_map.mp he
  exact iff_of_false (fun hall => hall d.1 rfl) not_false

/-- Only in a class is a method reported as declared twice. -/
theorem duplicatesFrom_iff {seen : List String} :
    NoDuplicateMethod (duplicatesFrom seen ns) ↔
      ∀ n ∈ ns, ∀ c superclass fields methods, n.kind = .classDecl c superclass fields methods →
        (declaredNames methods).Nodup := by
  induction ns generalizing seen with
  | nil => exact iff_of_true (List.forall_mem_nil _) (List.forall_mem_nil _)
  | cons n ns ih =>
    rw [List.forall_mem_cons]
    have other (h : n.label ≠ .classDecl) (c : String) (superclass : Option String)
        (fields methods : List Node) (hkind : n.kind = .classDecl c superclass fields methods) :
        (declaredNames methods).Nodup := absurd (congrArg Kind.label hkind) h
    obtain ⟨i, p, k⟩ := n
    cases k with
    | importDecl path =>
      rw [and_iff_right (other fun h => by cases h)]
      unfold duplicatesFrom
      dsimp only
      split
      · exact (cons_iff fun _ h => by cases h).trans ih
      · exact ih
    | classDecl c superclass fields methods =>
      unfold duplicatesFrom
      rw [append_iff, append_iff, duplicatesAmong_method_iff, ih,
        and_iff_right (duplicatesAmong .duplicateField (fun _ _ h => by cases h) fields)]
      refine and_congr_left fun _ =>
        ⟨fun h _ _ _ _ hkind => ?_, fun h => h c superclass fields methods rfl⟩
      cases hkind
      exact h
    | methodDecl head params locals body =>
      rw [and_iff_right (other fun h => by cases h)]
      unfold duplicatesFrom
      rw [append_iff, append_iff,
        and_iff_right (duplicatesAmong .duplicateParameter (fun _ _ h => by cases h) params),
        and_iff_right (duplicatesAmong .duplicateLocal (fun _ _ h => by cases h) locals)]
      exact ih
    | _ =>
      rw [and_iff_right (other fun h => by cases h)]
      exact ih

end NoDuplicateMethod

/-- **A method is reported as declared twice unless all methods have different names.** -/
theorem Loaded.noDuplicateMethod_iff {source : String} {root : Node} {table : SymbolTable}
    (h : Loaded source root table) :
    NoDuplicateMethod (checkDuplicates root) ↔ (declaredNames root.methods).Nodup := by
  rw [checkDuplicates, NoDuplicateMethod.duplicatesFrom_iff]
  obtain ⟨c, fields, hclass, hkind, -⟩ := h.exists_class?
  constructor
  · intro hall
    have hc := Node.mem_children_of_mem_items (List.mem_of_find?_eq_some hclass)
    exact hall c (Node.mem_preorder_of_mem_children hc c.mem_preorder_self) _ _ _ _ hkind
  · intro hnodup n hn name superclass fields' methods hkind'
    have hn' := h.class?_eq hn (congrArg Kind.label hkind')
    cases hclass.symm.trans hn'
    cases hkind.symm.trans hkind'
    exact hnodup

/-! ## Queries -/

namespace SymbolTable

/-- A query gives this answer, and the strict one does as well. -/
def Answers {α : Type} (name : String) (query : Option α) (a : α) : Prop :=
  query = some a ∧ demand name query = .ok a

/-- A query gives no answer, and the strict one fails because there is no such method. -/
def Refuses {α : Type} (name : String) (query : Option α) : Prop :=
  query = none ∧ demand name query = .error ⟨name⟩

theorem answers_iff {α : Type} {name : String} {query : Option α} {a : α} :
    Answers name query a ↔ query = some a :=
  ⟨And.left, fun h => ⟨h, h ▸ rfl⟩⟩

theorem refuses_iff {α : Type} {name : String} {query : Option α} :
    Refuses name query ↔ query = none :=
  ⟨And.left, fun h => ⟨h, h ▸ rfl⟩⟩

/-- The declaration, which is of this sort, writes the name and the type of the variable. -/
def Declares (sort : String → TypeExpr → Kind Node) (n : Node) (v : Variable) : Prop :=
  ∃ type, n.kind = sort v.name type ∧ v.type = .ofExpr type

/-- The symbol table says of a method what its declaration says: the parameters and the local
variables in their order with the types that are written, the written type of the result unless the
method is `main`, and whether the last parameter is for a row of arguments. -/
structure Describes (t : SymbolTable) (head : MethodHead) (params locals : List Node) : Prop where
  result : Answers head.name (t.returnType? head.name)
    (if head.name = "main" then .void else .ofExpr head.returnType)
  parameters : ∃ vs, Answers head.name (t.params? head.name) vs ∧
    List.Forall₂ (Declares .param) params vs
  localVariables : ∃ vs, Answers head.name (t.locals? head.name) vs ∧
    List.Forall₂ (Declares .varDecl) locals vs
  row : t.isVarargs head.name = true ↔
    ∃ n name element, params.getLast? = some n ∧ n.kind = .param name (.varargs element)

/-- Nothing is known of a method of this name. -/
structure Ignores (t : SymbolTable) (name : String) : Prop where
  result : Refuses name (t.returnType? name)
  parameters : Refuses name (t.params? name)
  localVariables : Refuses name (t.locals? name)
  row : t.isVarargs name = false

/-- Each of some declarations introduces its variable. -/
theorem forall₂_declares {sort : String → TypeExpr → Kind Node} {ns : List Node}
    (h : ∀ n ∈ ns, ∃ name type, n.kind = sort name type ∧ declared? n = some ⟨name, .ofExpr type⟩) :
    List.Forall₂ (Declares sort) ns (ns.filterMap declared?) := by
  induction ns with
  | nil => exact .nil
  | cons n ns ih =>
    obtain ⟨⟨name, type, hkind, hdeclared⟩, hns⟩ := List.forall_mem_cons.mp h
    rw [List.filterMap_cons_some hdeclared]
    exact .cons ⟨type, hkind, rfl⟩ (ih hns)

theorem isVarargsParam_iff {n : Node} :
    isVarargsParam n = true ↔ ∃ name element, n.kind = .param name (.varargs element) := by
  constructor
  · intro h
    unfold isVarargsParam at h
    split at h
    · rename_i name type hkind
      cases type with
      | varargs element => exact ⟨name, element, hkind⟩
      | _ => cases h
    · cases h
  · rintro ⟨name, element, hkind⟩
    rw [isVarargsParam, hkind]
    rfl

end SymbolTable

namespace Loaded

variable {source : String} {root m : Node} {table : SymbolTable} {head : MethodHead}
  {params locals body : List Node}

/-- **The first declaration of a name is the one that the symbol table describes.** -/
theorem describes_of_find? (h : Loaded source root table)
    (hfind : (root.methods.find? fun n => n.kind.declaredName? = some head.name) = some m)
    (hkind : m.kind = .methodDecl head params locals body) :
    table.Describes head params locals := by
  have hm := (Node.mem_preorder_of_mem_methods (List.mem_of_find?_eq_some hfind)).1
  obtain ⟨hparams, hlocals, -⟩ : (Kind.methodDecl head params locals body).Fits :=
    hkind ▸ (h.wellFormed.of_mem_preorder hm).fits
  have hsig := h.signature?_eq head.name
  rw [hfind, Option.bind_some, SymbolTable.signatureOf?, hkind] at hsig
  dsimp only at hsig
  refine ⟨SymbolTable.answers_iff.mpr ?_,
    ⟨params.filterMap SymbolTable.declared?, SymbolTable.answers_iff.mpr ?_, ?_⟩,
    ⟨locals.filterMap SymbolTable.declared?, SymbolTable.answers_iff.mpr ?_, ?_⟩, ?_⟩
  · rw [SymbolTable.returnType?_eq, hsig]
    by_cases hmain : head.name = "main" <;> simp [hmain]
  · rw [SymbolTable.params?_eq, hsig]
    rfl
  · refine SymbolTable.forall₂_declares fun n hn => ?_
    have hlabel := hparams n hn
    obtain ⟨i, p, k⟩ := n
    cases k with
    | param name type => exact ⟨name, type, rfl, rfl⟩
    | _ => cases hlabel
  · rw [SymbolTable.locals?_eq, hsig]
    rfl
  · refine SymbolTable.forall₂_declares fun n hn => ?_
    have hlabel := hlocals n hn
    obtain ⟨i, p, k⟩ := n
    cases k with
    | varDecl name type => exact ⟨name, type, rfl, rfl⟩
    | _ => cases hlabel
  · rw [SymbolTable.isVarargs_eq, hsig]
    cases hlast : params.getLast? with
    | none => simp
    | some last => simp [SymbolTable.isVarargsParam_iff]

/-- Nothing is known of a name that no method has. -/
theorem ignores (h : Loaded source root table) {name : String}
    (hname : name ∉ declaredNames root.methods) (hmain : name ≠ "main") : table.Ignores name := by
  have hsig := h.signature?_eq name
  have hfind : (root.methods.find? fun n => n.kind.declaredName? = some name) = none := by
    refine List.find?_eq_none.mpr fun n hn hdeclared => hname ?_
    exact List.mem_filterMap.mpr ⟨n, hn, of_decide_eq_true hdeclared⟩
  rw [hfind, Option.bind_none] at hsig
  refine ⟨SymbolTable.refuses_iff.mpr ?_, SymbolTable.refuses_iff.mpr ?_,
    SymbolTable.refuses_iff.mpr ?_, ?_⟩
  · rw [SymbolTable.returnType?_eq, if_neg (by simpa using hmain), hsig]
    rfl
  · rw [SymbolTable.params?_eq, hsig]
    rfl
  · rw [SymbolTable.locals?_eq, hsig]
    rfl
  · rw [SymbolTable.isVarargs_eq, hsig]
    rfl

/-- The methods are listed in the order of their declarations. -/
theorem forall₂_methods (h : Loaded source root table) :
    List.Forall₂ (fun m name => m.kind.declaredName? = some name) root.methods table.methods := by
  obtain ⟨c, fields, -, -, hsignatures⟩ := h.exists_class?
  have hlabel : ∀ m ∈ root.methods, m.label = .methodDecl := fun m => h.label_of_mem_methods
  rw [SymbolTable.methods_eq, hsignatures]
  generalize root.methods = ms at hlabel
  induction ms with
  | nil => exact .nil
  | cons m ms ih =>
    obtain ⟨hm, hms⟩ := List.forall_mem_cons.mp hlabel
    obtain ⟨i, p, k⟩ := m
    cases k with
    | methodDecl head params locals body => exact .cons rfl (ih hms)
    | _ => cases hm

end Loaded

/-- **The symbol table is faithful.** It lists the names of the methods in the order of their
declarations, and knows nothing of other names. A method is reported as declared twice unless all
methods have different names, and without such a report each declaration is described. -/
theorem describes_of_loadText {source : String} {root : Node} {table : SymbolTable}
    (hload : loadText source = .ok (root, table)) :
    List.Forall₂ (fun m name => m.kind.declaredName? = some name) root.methods table.methods ∧
    (NoDuplicateMethod (checkDuplicates root) ↔ (declaredNames root.methods).Nodup) ∧
    (NoDuplicateMethod (checkDuplicates root) → ∀ m ∈ root.preorder, ∀ head params locals body,
      m.kind = .methodDecl head params locals body → table.Describes head params locals) ∧
    ∀ name ∉ declaredNames root.methods, name ≠ "main" → table.Ignores name := by
  have h := loaded_of_loadText hload
  refine ⟨h.forall₂_methods, h.noDuplicateMethod_iff,
    fun hnone m hm head params locals body hkind => ?_, fun _ => h.ignores⟩
  have hnodup := h.noDuplicateMethod_iff.mp hnone
  have hmethod := h.mem_methods hm (congrArg Kind.label hkind)
  have hname : m.kind.declaredName? = some head.name := by rw [hkind]; rfl
  exact h.describes_of_find? (find?_of_nodup_declaredNames hnodup hmethod hname) hkind

/-- A method with a row of arguments and a local variable, and `main`. -/
theorem describes_of_loadText_row : ∃ root table,
    loadText "class A{int f(int a,int... b){boolean c;return a;}static void main(String[] s){}}" =
      .ok (root, table) ∧ table.methods = ["f", "main"] ∧
      NoDuplicateMethod (checkDuplicates root) ∧ table.Ignores "g" := by
  obtain ⟨root, table, h, hany⟩ := Accepted.exists_of_any
    "class A{int f(int a,int... b){boolean c;return a;}static void main(String[] s){}}"
    (fun root table => declaredNames root.methods = ["f", "main"] ∧ table.methods = ["f", "main"])
    (by decide +kernel)
  obtain ⟨hnames, hmethods⟩ := of_decide_eq_true hany
  obtain ⟨-, hnone, -, hunknown⟩ := describes_of_loadText h.loadText_eq_ok
  rw [hnames] at hnone hunknown
  exact ⟨root, table, h.loadText_eq_ok, hmethods, hnone.mpr (by decide),
    hunknown "g" (by decide) (by decide)⟩

end MiniJava
