import Mathlib.Data.List.Find
import Mathlib.Data.List.Nodup
import MiniJava.Proofs.Accepted

/-!
# Declarations of accepted programs

The symbol table finds the first of several methods with one name (`Loaded.signature?_eq`). The
checks find no name that is declared twice. So the symbol table finds the declaration of each method
by its name (`Accepted.signature?_eq`), and the parameters of a method have different names
(`Accepted.nodup_params`). A method takes a row of arguments only in an array
(`isArray_of_isVarargs`).
-/

namespace MiniJava

/-! ## Names declared twice -/

/-- Nothing is found twice exactly if the names differ from each other and from those seen
before. -/
theorem repeats_eq_nil_iff {seen : List String} {ds : List (String × Position)} :
    repeats seen ds = [] ↔ (ds.map Prod.fst).Nodup ∧ ∀ x ∈ ds.map Prod.fst, x ∉ seen := by
  induction ds generalizing seen with
  | nil => exact iff_of_true rfl ⟨List.nodup_nil, fun _ hx => nomatch hx⟩
  | cons d ds ih =>
    obtain ⟨name, p⟩ := d
    rw [repeats, List.map_cons, List.nodup_cons, List.forall_mem_cons]
    by_cases hseen : name ∈ seen
    · rw [if_pos (List.contains_iff_mem.mpr hseen)]
      exact iff_of_false (List.cons_ne_nil _ _) fun h => h.2.1 hseen
    · rw [if_neg (mt List.contains_iff_mem.mp hseen), ih]
      constructor
      · rintro ⟨hnodup, hnew⟩
        exact ⟨⟨fun hname => hnew name hname List.mem_cons_self, hnodup⟩, hseen,
          fun x hx hmem => hnew x hx (List.mem_cons_of_mem name hmem)⟩
      · rintro ⟨⟨hname, hnodup⟩, -, hnew⟩
        refine ⟨hnodup, fun x hx hmem => ?_⟩
        rcases List.mem_cons.mp hmem with rfl | hmem
        · exact hname hx
        · exact hnew x hx hmem

/-- The names that some nodes declare. -/
def declaredNames (ns : List Node) : List String := ns.filterMap (·.kind.declaredName?)

/-- Nothing is reported among nodes exactly if they declare different names. -/
theorem duplicatesAmong_eq_nil_iff (violation : String → Violation) {ns : List Node} :
    duplicatesAmong violation ns = [] ↔ (declaredNames ns).Nodup := by
  have hnames : (ns.filterMap fun n => n.kind.declaredName?.map (·, n.position)).map Prod.fst =
      declaredNames ns := by
    rw [List.map_filterMap]
    refine List.filterMap_congr fun n _ => ?_
    cases n.kind.declaredName? <;> rfl
  rw [duplicatesAmong, List.map_eq_nil_iff, repeats_eq_nil_iff, hnames]
  exact and_iff_left fun x _ => List.not_mem_nil

/-- Where nothing is found twice from the front on, nothing is found twice from any node on. -/
theorem exists_duplicatesFrom_eq_nil {seen : List String} {ns : List Node}
    (h : duplicatesFrom seen ns = []) {n : Node} (hn : n ∈ ns) :
    ∃ seen' ns', duplicatesFrom seen' (n :: ns') = [] := by
  induction ns generalizing seen with
  | nil => cases hn
  | cons m ms ih =>
    rcases List.mem_cons.mp hn with rfl | hn
    · exact ⟨seen, ms, h⟩
    · unfold duplicatesFrom at h
      split at h
      · simp only at h
        split at h
        · cases h
        · exact ih h hn
      · exact ih (List.append_eq_nil_iff.mp h).2 hn
      · exact ih (List.append_eq_nil_iff.mp h).2 hn
      · exact ih h hn

namespace Accepted

variable {source : String} {root m : Node} {table : SymbolTable} {head : MethodHead}
  {params locals body : List Node}

theorem exists_duplicatesFrom (h : Accepted source root table) {n : Node} (hn : n ∈ root.preorder) :
    ∃ seen ns, duplicatesFrom seen (n :: ns) = [] := by
  have hchecked := h.checked
  unfold analyze analyzeWith at hchecked
  simp only [List.append_eq_nil_iff] at hchecked
  exact exists_duplicatesFrom_eq_nil hchecked.1.1.1 hn

theorem nodup_methods (h : Accepted source root table) : (declaredNames root.methods).Nodup := by
  obtain ⟨n, hn, fields, hkind, -⟩ := h.exists_class
  obtain ⟨seen, ns, hnil⟩ :=
    h.exists_duplicatesFrom (Node.mem_preorder_of_mem_children hn n.mem_preorder_self)
  unfold duplicatesFrom at hnil
  rw [hkind] at hnil
  simp only [List.append_eq_nil_iff] at hnil
  exact (duplicatesAmong_eq_nil_iff _).mp hnil.1.2

theorem nodup_params (h : Accepted source root table) (hm : m ∈ root.methods)
    (hkind : m.kind = .methodDecl head params locals body) : (declaredNames params).Nodup := by
  obtain ⟨seen, ns, hnil⟩ := h.exists_duplicatesFrom (Node.mem_preorder_of_mem_methods hm).1
  unfold duplicatesFrom at hnil
  rw [hkind] at hnil
  simp only [List.append_eq_nil_iff] at hnil
  exact (duplicatesAmong_eq_nil_iff _).mp hnil.1.1

end Accepted

/-! ## Finding by name -/

section Find

variable {α : Type} {name : α → String} {f : Node → Option α} {ns : List Node}

/-- What is made from nodes has different names if it keeps the names that the nodes declare. -/
theorem nodup_map_filterMap (hf : ∀ n a, f n = some a → n.kind.declaredName? = some (name a))
    (h : (declaredNames ns).Nodup) : ((ns.filterMap f).map name).Nodup := by
  refine h.sublist ?_
  clear h
  induction ns with
  | nil => exact .slnil
  | cons n ns ih =>
    cases hn : f n with
    | none =>
      rw [List.filterMap_cons_none hn]
      exact ih.trans ((List.sublist_cons_self n ns).filterMap _)
    | some a =>
      have hnames : declaredNames (n :: ns) = name a :: declaredNames ns :=
        List.filterMap_cons_some (hf n a hn)
      rw [List.filterMap_cons_some hn, List.map_cons, hnames]
      exact ih.cons_cons (name a)

/-- Where names differ, each is found. -/
theorem find?_eq_of_nodup {as : List α} {a : α} (h : (as.map name).Nodup) (ha : a ∈ as) :
    as.find? (name · == name a) = some a := by
  cases hfind : as.find? (name · == name a) with
  | none => exact absurd (beq_self_eq_true (name a)) (List.find?_eq_none.mp hfind a ha)
  | some b =>
    have hname := List.find?_some hfind
    rw [beq_iff_eq] at hname
    rw [List.inj_on_of_nodup_map h (List.mem_of_find?_eq_some hfind) ha hname]

end Find

/-- Where names differ, each declaration is found. -/
theorem find?_of_nodup_declaredNames {ns : List Node} (h : (declaredNames ns).Nodup) {n : Node}
    (hn : n ∈ ns) {name : String} (hname : n.kind.declaredName? = some name) :
    (ns.find? fun m => m.kind.declaredName? = some name) = some n := by
  induction ns with
  | nil => cases hn
  | cons m ms ih =>
    rcases List.mem_cons.mp hn with rfl | hn
    · exact List.find?_cons_of_pos (decide_eq_true hname)
    · have hmem : name ∈ declaredNames ms := List.mem_filterMap.mpr ⟨n, hn, hname⟩
      cases hm : m.kind.declaredName? with
      | none =>
        have hms : declaredNames (m :: ms) = declaredNames ms := List.filterMap_cons_none hm
        rw [List.find?_cons_of_neg (by simp [hm])]
        exact ih (hms ▸ h) hn
      | some other =>
        have hms : declaredNames (m :: ms) = other :: declaredNames ms :=
          List.filterMap_cons_some hm
        rw [hms, List.nodup_cons] at h
        have hother : other ≠ name := fun heq => h.1 (heq ▸ hmem)
        rw [List.find?_cons_of_neg (by simp [hm, hother])]
        exact ih h.2 hn

/-! ## Signatures -/

namespace SymbolTable

theorem declaredName?_of_declared? {n : Node} {v : Variable} (h : declared? n = some v) :
    n.kind.declaredName? = some v.name := by
  unfold declared? at h
  split at h
  · rename_i hkind
    cases h
    rw [hkind]
    rfl
  · rename_i hkind
    cases h
    rw [hkind]
    rfl
  · cases h

/-- A parameter for a row of arguments declares an array. -/
theorem exists_declared?_of_isVarargsParam {n : Node} (h : isVarargsParam n = true) :
    ∃ v, declared? n = some v ∧ v.type.isArray = true := by
  unfold isVarargsParam at h
  split at h
  · rename_i name type hkind
    refine ⟨⟨name, .ofExpr type⟩, by rw [declared?, hkind], ?_⟩
    cases type with
    | varargs element => rfl
    | _ => cases h
  · cases h

/-- What takes a row of arguments has an array for its last parameter. -/
theorem isArray_of_signatureOf? {n : Node} {sig : Signature} (h : signatureOf? n = some sig)
    (hrow : sig.isVarargs = true) : ∃ p, sig.params.getLast? = some p ∧ p.type.isArray = true := by
  unfold signatureOf? at h
  split at h
  · rename_i head params locals body hkind
    cases h
    cases hlast : params.getLast? with
    | none => simp [hlast] at hrow
    | some last =>
      simp only [hlast, Option.map_some, Option.getD_some] at hrow
      obtain ⟨v, hv, harray⟩ := exists_declared?_of_isVarargsParam hrow
      obtain ⟨front, rfl⟩ := List.getLast?_eq_some_iff.mp hlast
      exact ⟨v, by simp [hv], harray⟩
  · cases h

/-- In the symbol table of a tree, the parameters of a method with a row of arguments end with an
array. -/
theorem isArray_of_isVarargs {root : Node} {table : SymbolTable} (h : ofTree? root = .ok table)
    {method : String} (hrow : table.isVarargs method = true) : ∃ params last,
      table.params? method = some params ∧ params.getLast? = some last ∧
        last.type.isArray = true := by
  obtain ⟨-, -, methods, -, -, hsignatures⟩ := ofTree?_eq_ok h
  rw [isVarargs_eq] at hrow
  rw [params?_eq]
  cases hs : table.signature? method with
  | none => rw [hs] at hrow; cases hrow
  | some s =>
    rw [hs] at hrow
    have hmem := List.mem_of_find?_eq_some hs
    rw [hsignatures] at hmem
    obtain ⟨n, -, hn⟩ := List.mem_filterMap.mp hmem
    obtain ⟨last, hlast, harray⟩ := isArray_of_signatureOf? hn hrow
    exact ⟨s.params, last, rfl, hlast, harray⟩

end SymbolTable

namespace Loaded

variable {source : String} {root m : Node} {table : SymbolTable}

theorem label_of_mem_methods (h : Loaded source root table) (hm : m ∈ root.methods) :
    m.label = .methodDecl :=
  (Node.mem_preorder_of_mem_methods hm).2 h.wellFormed

/-- Under the name of a method is found what the first declaration of this name says. -/
theorem signature?_eq (h : Loaded source root table) (name : String) :
    table.signature? name = (root.methods.find? fun n => n.kind.declaredName? = some name).bind
      SymbolTable.signatureOf? := by
  obtain ⟨c, fields, -, -, hsignatures⟩ := h.exists_class?
  rw [SymbolTable.signature?, firstOf?, hsignatures, List.find?_filterMap]
  congr 1
  refine List.find?_congr fun n hn => ?_
  have hlabel := h.label_of_mem_methods hn
  obtain ⟨i, p, k⟩ := n
  cases k with
  | methodDecl head params locals body =>
    simp [SymbolTable.signatureOf?, Kind.declaredName?, Bool.beq_eq_decide_eq]
  | _ => cases hlabel

end Loaded

namespace Accepted

variable {source : String} {root m : Node} {table : SymbolTable} {head : MethodHead}
  {params locals body : List Node}

/-- **The symbol table finds each method by its name.** -/
theorem signature?_eq (h : Accepted source root table) (hm : m ∈ root.methods)
    (hkind : m.kind = .methodDecl head params locals body) :
    table.signature? head.name = SymbolTable.signatureOf? m := by
  have hname : m.kind.declaredName? = some head.name := by
    rw [hkind]
    rfl
  rw [h.loaded.signature?_eq, find?_of_nodup_declaredNames h.nodup_methods hm hname,
    Option.bind_some]

/-- The result of a method in the symbol table is the declared one, except for `main`. -/
theorem returnType?_eq (h : Accepted source root table) (hm : m ∈ root.methods)
    (hkind : m.kind = .methodDecl head params locals body) :
    table.returnType? head.name =
      some (if head.name = "main" then .void else .ofExpr head.returnType) := by
  rw [SymbolTable.returnType?_eq]
  by_cases hmain : head.name = "main"
  · simp [hmain]
  · rw [h.signature?_eq hm hkind, SymbolTable.signatureOf?, hkind]
    simp [hmain]

/-- The parameters of a method that takes a row of arguments end with an array. -/
theorem isArray_of_isVarargs (h : Accepted source root table) {method : String}
    (hrow : table.isVarargs method = true) :
    ∃ p, ((table.params? method).getD []).getLast? = some p ∧ p.type.isArray = true := by
  obtain ⟨params, last, hparams, hlast, harray⟩ := SymbolTable.isArray_of_isVarargs h.declared hrow
  rw [hparams]
  exact ⟨last, hlast, harray⟩

end Accepted

end MiniJava
