import MiniJava.Proofs.Diagnostic.Sorting
import MiniJava.Proofs.Tree.Numbering
import MiniJava.Proofs.Typing.Sites

/-!
# Where the errors are

The checks look at one node after the other, and what they find wrong with a node they report at
that node or at one of its children. So each error of a program has the position of one of its nodes
(`standWithin_analyze`), which is that of a node of the raw tree (`Node.exists_mem_postorder`). The
diagnostic for it has this position, or none if it is not known.
-/

namespace MiniJava

/-- Each of these errors stands at the node or at one below it. -/
def Node.StandWithin (n : Node) (es : List SemanticError) : Prop :=
  ∀ e ∈ es, ∃ m ∈ n.preorder, e.position = m.position

namespace Node.StandWithin

variable {n c : Node} {es fs : List SemanticError}

theorem nil (n : Node) : n.StandWithin [] := nofun

theorem violates {m : Node} (hm : m ∈ n.preorder) (v : Violation) :
    n.StandWithin [m.violates v] := fun _ he => ⟨m, hm, by rw [List.mem_singleton.mp he]; rfl⟩

theorem self (n : Node) (v : Violation) : n.StandWithin [n.violates v] :=
  violates n.mem_preorder_self v

theorem append (h : n.StandWithin es) (h' : n.StandWithin fs) : n.StandWithin (es ++ fs) :=
  fun e he => (List.mem_append.mp he).elim (h e) (h' e)

theorem flatMap {α : Type} {as : List α} {f : α → List SemanticError}
    (h : ∀ a ∈ as, n.StandWithin (f a)) : n.StandWithin (as.flatMap f) := fun e he =>
  have ⟨a, ha, he⟩ := List.mem_flatMap.mp he
  h a ha e he

theorem of_mem_preorder (h : c.StandWithin es) (hc : c ∈ n.preorder) : n.StandWithin es :=
  fun e he =>
    have ⟨m, hm, heq⟩ := h e he
    ⟨m, (preorder_infix_of_mem_preorder hc).subset hm, heq⟩

theorem of_mem_children (h : c.StandWithin es) (hc : c ∈ n.children) : n.StandWithin es :=
  h.of_mem_preorder (mem_preorder_of_mem_children hc c.mem_preorder_self)

end Node.StandWithin

open Node (StandWithin)

/-! ## Names declared twice -/

theorem repeats_subset (seen : List String) (declared : List (String × Position)) :
    repeats seen declared ⊆ declared := by
  induction declared generalizing seen with
  | nil => exact List.Subset.refl _
  | cons d ds ih =>
    unfold repeats
    split
    · exact List.cons_subset_cons d (ih seen)
    · exact List.subset_cons_of_subset d (ih _)

theorem standWithin_duplicatesAmong {n : Node} (violation : String → Violation) {ns : List Node}
    (h : ∀ c ∈ ns, c ∈ n.preorder) : n.StandWithin (duplicatesAmong violation ns) := by
  intro e he
  obtain ⟨⟨name, p⟩, hrepeat, rfl⟩ := List.mem_map.mp he
  obtain ⟨c, hc, hname⟩ := List.mem_filterMap.mp (repeats_subset _ _ hrepeat)
  obtain ⟨name', -, heq⟩ := Option.map_eq_some_iff.mp hname
  cases heq
  exact ⟨c, h c hc, rfl⟩

theorem standWithin_duplicatesFrom {n : Node} (seen : List String) {ns : List Node}
    (h : ∀ m ∈ ns, m ∈ n.preorder) : n.StandWithin (duplicatesFrom seen ns) := by
  induction ns generalizing seen with
  | nil => exact .nil n
  | cons m ms ih =>
    obtain ⟨hm, hms⟩ := List.forall_mem_cons.mp h
    have children : ∀ c ∈ m.kind.children, c ∈ n.preorder := fun c hc =>
      (preorder_infix_of_mem_preorder hm).subset
        (Node.mem_preorder_of_mem_children hc c.mem_preorder_self)
    have row (v : String → Violation) {cs : List Node} (hcs : cs ⊆ m.kind.children) :
        n.StandWithin (duplicatesAmong v cs) :=
      standWithin_duplicatesAmong v fun c hc => children c (hcs hc)
    unfold duplicatesFrom
    cases hkind : m.kind with
    | importDecl path =>
      dsimp only
      split
      · exact (StandWithin.violates hm _).append (ih seen hms)
      · exact ih _ hms
    | classDecl name ext fields methods =>
      rw [hkind] at row
      exact ((row _ (List.subset_append_left _ _)).append
        (row _ (List.subset_append_right _ _))).append (ih seen hms)
    | methodDecl head params locals body =>
      rw [hkind] at row
      simp only [Kind.children, List.append_assoc] at row
      exact ((row _ (List.subset_append_left _ _)).append
        (row _ fun c hc => List.mem_append_right _ (List.mem_append_left _ hc))).append
          (ih seen hms)
    | _ => exact ih seen hms

/-! ## Structure -/

theorem standWithin_checkType (t : SymbolTable) (n : Node) (type : TypeExpr) :
    n.StandWithin (t.checkType n type) := by
  unfold SymbolTable.checkType
  repeat (first | exact .nil n | exact .self n _ | split)

theorem standWithin_checkVarargsPlace {n : Node} {params : List Node}
    (h : ∀ p ∈ params, p ∈ n.preorder) : n.StandWithin (checkVarargsPlace params) := by
  intro e he
  obtain ⟨p, hp, rfl⟩ := List.mem_map.mp he
  exact ⟨p, h p (params.dropLast_subset (List.mem_filter.mp hp).1), rfl⟩

theorem standWithin_checkStructureAt (t : SymbolTable) (scope? : Option Scope) (n : Node) :
    n.StandWithin (checkStructureAt t (scope?, n)) := by
  unfold checkStructureAt
  dsimp only
  cases hkind : n.kind with
  | varDecl name type =>
    refine .append ?_ (standWithin_checkType t n type)
    split
    · exact .self n _
    · exact .nil n
  | param name type => exact standWithin_checkType t n type
  | methodDecl head params locals body =>
    have hparams : ∀ p ∈ params, p ∈ n.preorder := fun p hp =>
      Node.mem_preorder_of_mem_children (by simp [Node.children, hkind, Kind.children, hp])
        p.mem_preorder_self
    refine (StandWithin.append (.append ?_ (standWithin_checkType t n _))
      (standWithin_checkVarargsPlace hparams)).append ?_
    all_goals repeat (first | exact .nil n | exact .self n _ | split)
  | newArray element size => exact standWithin_checkType t n element
  | this | newObject | assign | arrayAssign =>
    dsimp only
    repeat (first | exact .nil n | exact .self n _ | split)
  | _ => exact .nil n

/-! ## Types -/

namespace Scope

variable (sc : Scope) (n : Node)

theorem standWithin_checkOperands (op : BinaryOp) (l r : Node) :
    n.StandWithin (sc.checkOperands n op l r) := by
  unfold checkOperands
  dsimp only
  repeat (first | exact .nil n | exact .self n _ | split)

theorem standWithin_checkCondition (c : Construct) : n.StandWithin (sc.checkCondition c n) := by
  unfold checkCondition
  repeat (first | exact .nil n | exact .self n _ | split)

theorem standWithin_checkIndex : n.StandWithin (sc.checkIndex n) := by
  unfold checkIndex
  repeat (first | exact .nil n | exact .self n _ | split)

theorem standWithin_checkArray : n.StandWithin (sc.checkArray n) := by
  unfold checkArray
  repeat (first | exact .nil n | exact .self n _ | split)

theorem standWithin_checkElements (elements : List Node) :
    n.StandWithin (sc.checkElements n elements) := by
  unfold checkElements
  dsimp only
  repeat (first | exact .nil n | exact .self n _ | split)

theorem standWithin_checkTypesAt : n.StandWithin (sc.checkTypesAt n) := by
  have child {c : Node} {es : List SemanticError} (h : c.StandWithin es)
      (hc : c ∈ n.kind.children) : n.StandWithin es := h.of_mem_children hc
  unfold checkTypesAt
  cases hkind : n.kind with
  | binary op l r => exact sc.standWithin_checkOperands n op l r
  | ifElse c t e =>
    exact child (sc.standWithin_checkCondition c _) (by simp [hkind, Kind.children])
  | whileLoop c b =>
    exact child (sc.standWithin_checkCondition c _) (by simp [hkind, Kind.children])
  | arrayLength array =>
    exact child (sc.standWithin_checkArray array) (by simp [hkind, Kind.children])
  | arrayLit elements => exact sc.standWithin_checkElements n elements
  | arrayAccess array index =>
    exact (child (sc.standWithin_checkArray array) (by simp [hkind, Kind.children])).append
      (child (sc.standWithin_checkIndex index) (by simp [hkind, Kind.children]))
  | arrayAssign target index value =>
    refine (child (sc.standWithin_checkIndex index) (by simp [hkind, Kind.children])).append ?_
    repeat (first | exact .nil n | exact .self n _ | split)
  | unary | assign | returning =>
    dsimp only
    repeat (first | exact .nil n | exact .self n _ | split)
  | _ => exact .nil n

/-! ## Names -/

theorem standWithin_checkArgument (method : String) (expected : Ty) (found : Option Ty) :
    n.StandWithin (sc.checkArgument n method expected found) := by
  unfold checkArgument
  repeat (first | exact .nil n | exact .self n _ | split)

theorem standWithin_checkRow (method : String) (last : Ty) (found : List (Option Ty)) :
    n.StandWithin (sc.checkRow n method last found) := by
  have each : n.StandWithin (found.flatMap (sc.checkArgument n method last.element)) :=
    .flatMap fun found _ => sc.standWithin_checkArgument n method last.element found
  unfold checkRow
  split
  · split
    · exact sc.standWithin_checkArgument n method last _
    · exact each
  · exact each

theorem standWithin_checkArguments (receiver : Node) (method : String) (arguments : List Node) :
    n.StandWithin (sc.checkArguments n receiver method arguments) := by
  unfold checkArguments
  extract_lets params isVarargs fixed fits types single row
  split
  · exact .self n _
  · refine .append (.flatMap fun _ _ => sc.standWithin_checkArgument n method _ _) ?_
    unfold row
    split
    · exact sc.standWithin_checkRow n method _ _
    · exact .nil n

theorem standWithin_checkCall (receiver : Node) (method : String) (arguments : List Node) :
    n.StandWithin (sc.checkCall n receiver method arguments) := by
  unfold checkCall
  repeat (first
    | exact .nil n | exact .self n _ | exact sc.standWithin_checkArguments n _ _ _ | split)

theorem standWithin_checkNamesAt : n.StandWithin (sc.checkNamesAt n) := by
  unfold checkNamesAt
  cases n.kind with
  | call receiver method arguments => exact sc.standWithin_checkCall n receiver method arguments
  | varRef | assign | arrayAssign =>
    dsimp only
    repeat (first | exact .nil n | exact .self n _ | split)
  | _ => exact .nil n

end Scope

/-! ## All checks -/

/-- What a check of single nodes finds on a walk. -/
theorem standWithin_walk {check : Option Scope × Node → List SemanticError}
    (h : ∀ (scope? : Option Scope) (n : Node), n.StandWithin (check (scope?, n)))
    (scopeOf : ScopeOf) (root : Node) :
    root.StandWithin ((walk scopeOf root).flatMap check) := by
  refine .flatMap fun x hx => (h x.1 x.2).of_mem_preorder ?_
  rw [← map_snd_withScopes scopeOf none root.preorder]
  exact List.mem_map_of_mem hx

/-- **Every error of a program stands at one of its nodes.** -/
theorem standWithin_analyze (t : SymbolTable) (root : Node) :
    root.StandWithin (analyze t root) := by
  unfold analyze analyzeWith
  refine .append (.append (.append ?_ ?_) ?_) ?_
  · exact standWithin_duplicatesFrom [] fun _ h => h
  · exact standWithin_walk (standWithin_checkStructureAt t) _ root
  · refine standWithin_walk (fun scope? n => ?_) _ root
    cases scope? with
    | none => exact .nil n
    | some sc => exact sc.standWithin_checkTypesAt n
  · refine standWithin_walk (fun scope? n => ?_) _ root
    cases scope? with
    | none => exact .nil n
    | some sc => exact sc.standWithin_checkNamesAt n

/-! ## Positions -/

/-- A node stands where the raw node stands of which it is made. -/
theorem Node.exists_mem_postorder {raw : RawNode} {root m : Node} (h : ofRaw? raw = .ok root)
    (hm : m ∈ root.preorder) : ∃ r ∈ raw.postorder, m.position = r.position := by
  obtain ⟨read, hread, hcells⟩ := exists_sublist_of_ofRaw? h
  have hcell : m.cell ∈ RawNode.numbered 0 read :=
    (Multiset.coe_eq_coe.mp hcells).subset (List.mem_map_of_mem hm)
  obtain ⟨⟨r, i⟩, hr, heq⟩ := List.mem_map.mp hcell
  exact ⟨r, hread.subset (List.fst_mem_of_mem_zipIdx hr), congrArg Cell.position heq.symm⟩

/-- Pointing at a place changes nothing else. -/
theorem Diagnostic.pointAt_eq (d : Diagnostic) (p : Position) :
    d.pointAt p = { d with position := if p.isKnown then some p else d.position } := by
  unfold pointAt
  split <;> rfl

theorem SemanticError.position_toDiagnostic (e : SemanticError) :
    e.toDiagnostic.position = if e.position.isKnown then some e.position else none := by
  rw [toDiagnostic, Diagnostic.pointAt_eq]
  rfl

theorem position_divisionWarning (n : Node) :
    (divisionWarning n).position = if n.position.isKnown then some n.position else none := by
  rw [divisionWarning, Diagnostic.pointAt_eq]
  rfl

/-- What is found in a tree is found at the position of a node, or nowhere. -/
theorem exists_position_eq {table : SymbolTable} {root : Node} {d : Diagnostic}
    (h : d ∈ (analyze table root).map SemanticError.toDiagnostic ++ divisionWarnings root) :
    ∃ m ∈ root.preorder, d.position = if m.position.isKnown then some m.position else none := by
  rcases List.mem_append.mp h with h | h
  · obtain ⟨e, he, rfl⟩ := List.mem_map.mp h
    obtain ⟨m, hm, hposition⟩ := standWithin_analyze table root e he
    exact ⟨m, hm, hposition ▸ e.position_toDiagnostic⟩
  · obtain ⟨m, hm, rfl⟩ := List.mem_map.mp h
    exact ⟨m, (List.mem_filter.mp hm).1, position_divisionWarning m⟩

end MiniJava
