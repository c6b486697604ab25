import MiniJava.Proofs.Optimize.LookAhead

/-!
# The order of the passes does not matter

Passes of propagation and of folding may be run in any order and as often as one likes: if they come
to an end, they end in one and the same tree, that of the optimizer.

What they all lead to can be told in advance (`Node.outcome`): look ahead in all methods, and fold.
Neither pass changes the outcome, and a tree that both passes leave alone is its own outcome.

The main theorem is `Graph.toTree_eq_of_schedule`.
-/

namespace MiniJava

namespace Node

variable {n : Node}

/-! ## Methods -/

section Methods

variable (t : SymbolTable)

/-- Look ahead in a method, at whose begin nothing is known. -/
def lookAheadMethod (n : Node) : Node :=
  match n.kind with
  | .methodDecl head params locals body =>
    { n with kind :=
        .methodDecl head params locals (lookAheadAll (trackedNames t head) {} body).1 }
  | _ => n

theorem lookAheadMethod_of_not_method (h : n.label ≠ .methodDecl) : lookAheadMethod t n = n := by
  obtain ⟨i, p, kind⟩ := n
  cases kind with
  | methodDecl => exact absurd rfl h
  | _ => rfl

theorem folded_methodDecl (i : Nat) (p : Position) (head : MethodHead)
    (params locals body : List Node) : folded ⟨i, p, .methodDecl head params locals body⟩ =
      ⟨i, p, .methodDecl head (params.map folded) (locals.map folded) (body.map folded)⟩ :=
  folded_of_not_mem (by simp [label, Kind.label])

theorem map_folded_folded (ns : List Node) : (ns.map folded).map folded = ns.map folded := by
  rw [List.map_map]
  exact List.map_congr_left fun n _ => folded_folded n

theorem folded_lookAheadMethod_folded (n : Node) :
    (lookAheadMethod t n.folded).folded = (lookAheadMethod t n).folded := by
  by_cases hlabel : n.label = .methodDecl
  · obtain ⟨i, p, kind⟩ := n
    cases kind with
    | methodDecl head params locals body =>
      have hbody : (lookAheadAll (trackedNames t head) {} (body.map folded)).1.map folded =
          (lookAheadAll (trackedNames t head) {} body).1.map folded :=
        (folded_lookAheadAll_folded (fun n _ k => folded_lookAhead_folded n k) {}).1
      rw [folded_methodDecl]
      simp only [lookAheadMethod]
      rw [folded_methodDecl, folded_methodDecl, map_folded_folded, map_folded_folded, hbody]
    | _ => cases hlabel
  · have hfolded : n.folded.label ≠ .methodDecl :=
      fun h => hlabel ((label_foldConstants n (by decide)).mp h)
    rw [lookAheadMethod_of_not_method t hlabel, lookAheadMethod_of_not_method t hfolded,
      folded_folded]

theorem lookAheadMethod_propagateMethod (n : Node) :
    lookAheadMethod t (propagateMethod t n).value = lookAheadMethod t n := by
  obtain ⟨i, p, kind⟩ := n
  cases kind with
  | methodDecl head params locals body =>
    let tracked := trackedNames t head
    have hbody : lookAheadAll tracked {} (propagateAll tracked {} body).value.1 =
        lookAheadAll tracked {} body :=
      (lookAheadAll_propagateAll (fun n _ k j h => lookAhead_propagate n h) fun _ _ h => h).1
    exact congrArg (fun r : List Node × Known => Node.mk i p (.methodDecl head params locals r.1))
      hbody
  | _ => rfl

theorem lookAheadMethod_of_fixed (hpropagate : (propagateMethod t n).value = n)
    (hfolded : n.folded = n) : lookAheadMethod t n = n := by
  by_cases hlabel : n.label = .methodDecl
  · obtain ⟨i, p, kind⟩ := n
    cases kind with
    | methodDecl head params locals body =>
      injection hpropagate with _ _ hkind
      injection hkind with _ _ _ hbody
      have hbodies : body.map folded = body := by
        rw [folded_methodDecl] at hfolded
        injection hfolded with _ _ hkind
        injection hkind
      have hall := lookAheadAll_of_fixed (fun n _ k => lookAhead_of_fixed n) hbody
        (map_eq_self_iff.mp hbodies)
      simp only [lookAheadMethod, hall]
      exact congrArg (fun ns => Node.mk i p (.methodDecl head params locals ns)) hbody
    | _ => cases hlabel
  · exact lookAheadMethod_of_not_method t hlabel

end Methods

/-! ## Programs -/

/-- Replace the methods of the first class among the items of a program. -/
def mapMethodsAmong (f : Node → Node) : List Node → List Node
  | [] => []
  | n :: ns =>
    match n.kind with
    | .classDecl name superclass fields methods =>
      { n with kind := .classDecl name superclass fields (methods.map f) } :: ns
    | _ => n :: mapMethodsAmong f ns

/-- Replace the methods of a program. -/
def mapMethods (f : Node → Node) (root : Node) : Node :=
  match root.kind with
  | .program items => { root with kind := .program (mapMethodsAmong f items) }
  | _ => root

variable {f g : Node → Node}

theorem mapMethodsAmong_cons_other (f : Node → Node) {n : Node} (h : n.label ≠ .classDecl)
    (ns : List Node) : mapMethodsAmong f (n :: ns) = n :: mapMethodsAmong f ns := by
  obtain ⟨i, p, kind⟩ := n
  cases kind with
  | classDecl => exact absurd rfl h
  | _ => rfl

theorem mapMethods_of_not_program (f : Node → Node) {root : Node} (h : root.label ≠ .program) :
    root.mapMethods f = root := by
  obtain ⟨i, p, kind⟩ := root
  cases kind with
  | program => exact absurd rfl h
  | _ => rfl

theorem mapMethods_mapMethods (g f : Node → Node) (root : Node) :
    (root.mapMethods f).mapMethods g = root.mapMethods fun m => g (f m) := by
  have among (items : List Node) :
      mapMethodsAmong g (mapMethodsAmong f items) = mapMethodsAmong (fun m => g (f m)) items := by
    induction items with
    | nil => rfl
    | cons n ns ih =>
      obtain ⟨i, p, kind⟩ := n
      cases kind with
      | classDecl name superclass fields methods => simp [mapMethodsAmong, Function.comp_def]
      | _ => exact congrArg (_ :: ·) ih
  obtain ⟨i, p, kind⟩ := root
  cases kind with
  | program items => exact congrArg (fun ns => Node.mk i p (.program ns)) (among items)
  | _ => rfl

theorem mapMethods_of_forall {root : Node} (h : ∀ m ∈ root.methods, f m = m) :
    root.mapMethods f = root := by
  have among (items : List Node) (h : ∀ m ∈ methodsAmong items, f m = m) :
      mapMethodsAmong f items = items := by
    induction items with
    | nil => rfl
    | cons n ns ih =>
      obtain ⟨i, p, kind⟩ := n
      cases kind with
      | classDecl name superclass fields methods =>
        have hmethods : methods.map f = methods := map_eq_self_iff.mpr h
        simp only [mapMethodsAmong, hmethods]
      | _ => exact congrArg (_ :: ·) (ih h)
  obtain ⟨i, p, kind⟩ := root
  cases kind with
  | program items => exact congrArg (fun ns => Node.mk i p (.program ns)) (among items h)
  | _ => rfl

theorem value_propagateConstants (t : SymbolTable) (root : Node) :
    (propagateConstants t root).value = root.mapMethods fun m => (propagateMethod t m).value := by
  have among (items : List Node) : (propagateItems t items).value =
      mapMethodsAmong (fun m => (propagateMethod t m).value) items := by
    induction items with
    | nil => rfl
    | cons n ns ih =>
      obtain ⟨i, p, kind⟩ := n
      cases kind with
      | classDecl name superclass fields methods =>
        exact congrArg (fun ms => Node.mk i p (.classDecl name superclass fields ms) :: ns)
          (Counted.value_mapM _ methods)
      | _ => exact congrArg (_ :: ·) ih
  obtain ⟨i, p, kind⟩ := root
  cases kind with
  | program items => exact congrArg (fun ns => Node.mk i p (.program ns)) (among items)
  | _ => rfl

/-- Folding in front of it makes no difference to a replacement of methods, if it makes none to the
replacement of each. -/
theorem folded_mapMethods_folded (h : ∀ m : Node, (f m.folded).folded = (f m).folded)
    (root : Node) : (root.folded.mapMethods f).folded = (root.mapMethods f).folded := by
  have among (items : List Node) : (mapMethodsAmong f (items.map folded)).map folded =
      (mapMethodsAmong f items).map folded := by
    induction items with
    | nil => rfl
    | cons n ns ih =>
      by_cases hlabel : n.label = .classDecl
      · obtain ⟨i, p, kind⟩ := n
        cases kind with
        | classDecl name superclass fields methods =>
          have folded_class (fields methods : List Node) :
              folded ⟨i, p, .classDecl name superclass fields methods⟩ =
                ⟨i, p, .classDecl name superclass (fields.map folded) (methods.map folded)⟩ :=
            folded_of_not_mem (by simp [label, Kind.label])
          have hmethods : ((methods.map folded).map f).map folded = (methods.map f).map folded := by
            simp only [List.map_map]
            exact List.map_congr_left fun m _ => h m
          rw [List.map_cons, folded_class]
          simp only [mapMethodsAmong, List.map_cons]
          rw [folded_class, folded_class, map_folded_folded, map_folded_folded, hmethods]
        | _ => cases hlabel
      · have hfolded : n.folded.label ≠ .classDecl :=
          fun h => hlabel ((label_foldConstants n (by decide)).mp h)
        rw [List.map_cons, mapMethodsAmong_cons_other f hfolded,
          mapMethodsAmong_cons_other f hlabel, List.map_cons, List.map_cons, ih, folded_folded]
  by_cases hlabel : root.label = .program
  · obtain ⟨i, p, kind⟩ := root
    cases kind with
    | program items =>
      have folded_program (items : List Node) :
          folded ⟨i, p, .program items⟩ = ⟨i, p, .program (items.map folded)⟩ :=
        folded_of_not_mem (by simp [label, Kind.label])
      rw [folded_program]
      simp only [mapMethods]
      rw [folded_program, folded_program, among]
    | _ => cases hlabel
  · have hfolded : root.folded.label ≠ .program :=
      fun h => hlabel ((label_foldConstants root (by decide)).mp h)
    rw [mapMethods_of_not_program f hfolded, mapMethods_of_not_program f hlabel, folded_folded]

/-- What all schedules of passes lead to: look ahead in the methods, and fold. -/
def outcome (t : SymbolTable) (root : Node) : Node :=
  (root.mapMethods (lookAheadMethod t)).folded

variable (t : SymbolTable)

/-- **A pass of folding does not change the outcome.** -/
theorem outcome_foldConstants (root : Node) :
    (foldConstants root).value.outcome t = root.outcome t :=
  folded_mapMethods_folded (folded_lookAheadMethod_folded t) root

/-- **A pass of propagation does not change the outcome.** -/
theorem outcome_propagateConstants (root : Node) :
    (propagateConstants t root).value.outcome t = root.outcome t := by
  unfold outcome
  rw [value_propagateConstants, mapMethods_mapMethods]
  simp only [lookAheadMethod_propagateMethod]

/-- **A tree that both passes leave alone is its own outcome.** -/
theorem outcome_of_fixed {root : Node} (hpropagate : (propagateConstants t root).value = root)
    (hfold : (foldConstants root).value = root) : root.outcome t = root := by
  have hp := methods_propagateConstants t root
  have hf := methods_foldConstants root
  rw [hpropagate] at hp
  rw [hfold] at hf
  have hmethods : root.mapMethods (lookAheadMethod t) = root :=
    mapMethods_of_forall fun m hm => lookAheadMethod_of_fixed t
      (map_eq_self_iff.mp hp.symm m hm) (map_eq_self_iff.mp hf.symm m hm)
  unfold outcome
  rw [hmethods]
  exact hfold

end Node

/-! ## Schedules -/

/-- The passes of the optimizer. -/
inductive Pass where
  | propagation
  | folding
deriving DecidableEq, Repr, Inhabited

namespace Pass

variable (t : SymbolTable)

/-- The tree after a pass. -/
def onTree : Pass → Node → Node
  | propagation, n => (propagateConstants t n).value
  | folding, n => (foldConstants n).value

/-- The graph after a pass. -/
def onGraph : Pass → Graph → Graph
  | propagation, g => (g.propagateConstants t).value
  | folding, g => g.foldConstants.value

/-- The tree after some passes in a row. -/
def allOnTree (ps : List Pass) (n : Node) : Node := ps.foldl (fun n p => p.onTree t n) n

/-- The graph after some passes in a row. -/
def allOnGraph (ps : List Pass) (g : Graph) : Graph := ps.foldl (fun g p => p.onGraph t g) g

/-- A pass on a graph is a pass on the tree that it shows. -/
theorem shows_onGraph (p : Pass) {g : Graph} {n : Node} (h : g.Shows n) :
    (p.onGraph t g).Shows (p.onTree t n) := by
  cases p with
  | propagation => exact (h.propagateConstants t).2
  | folding => exact h.foldConstants.2

theorem shows_allOnGraph (ps : List Pass) {g : Graph} {n : Node} (h : g.Shows n) :
    (allOnGraph t ps g).Shows (allOnTree t ps n) := by
  induction ps generalizing g n with
  | nil => exact h
  | cons p ps ih => exact ih (p.shows_onGraph t h)

theorem outcome_onTree (p : Pass) (n : Node) : (p.onTree t n).outcome t = n.outcome t := by
  cases p with
  | propagation => exact n.outcome_propagateConstants t
  | folding => exact n.outcome_foldConstants t

theorem outcome_allOnTree (ps : List Pass) (n : Node) :
    (allOnTree t ps n).outcome t = n.outcome t := by
  induction ps generalizing n with
  | nil => rfl
  | cons p ps ih => exact (ih (p.onTree t n)).trans (p.outcome_onTree t n)

end Pass

/-- The optimizer does not change the outcome. -/
theorem outcome_optimize {t : SymbolTable} {n n' : Node} {stats : OptimizationStats}
    (h : optimize t n = .ok (n', stats)) : n'.outcome t = n.outcome t := by
  let R (a b : Node) : Prop := a = b ∧ b.outcome t = n.outcome t
  obtain ⟨b, -, rfl, hb⟩ : ∃ b, alternate (propagateConstants t) foldConstants (n.size + 1) {} n =
      .ok (b, stats) ∧ R n' b := Graph.alternate_of_related
    (fun a b ⟨hab, hb⟩ => ⟨by rw [hab], by rw [hab], (b.outcome_propagateConstants t).trans hb⟩)
    (fun a b ⟨hab, hb⟩ => ⟨by rw [hab], by rw [hab], (b.outcome_foldConstants t).trans hb⟩)
    ⟨rfl, rfl⟩ h
  exact hb

namespace Graph

variable {raw : RawNode} {root : Node}

/-- A tree whose graph both passes leave alone is its own outcome. -/
theorem Shows.outcome_eq {t : SymbolTable} {g : Graph} {n : Node} (h : g.Shows n)
    (hend : ∀ p : Pass, (p.onGraph t g).toTree = g.toTree) : n.outcome t = n := by
  have fixed (p : Pass) : p.onTree t n = n := by
    rw [← (p.shows_onGraph t h).toTree, hend p, h.toTree]
  exact n.outcome_of_fixed t (fixed .propagation) (fixed .folding)

/-- **The optimized tree does not depend on the order of the passes.** If the tree that has been
read goes through any passes in a row, and neither pass changes the tree in which they end, then
this is the tree that the optimizer makes. -/
theorem toTree_eq_of_schedule (h : Node.ofRaw? raw = .ok root) (t : SymbolTable) (ps : List Pass)
    (hend : ∀ p : Pass, (p.onGraph t (Pass.allOnGraph t ps (ofTree root))).toTree =
      (Pass.allOnGraph t ps (ofTree root)).toTree) :
    ∃ g stats, (ofTree root).optimize t = .ok (g, stats) ∧
      (Pass.allOnGraph t ps (ofTree root)).toTree = g.toTree := by
  have hroot := shows_ofTree h
  have hschedule := Pass.shows_allOnGraph t ps hroot
  obtain ⟨g, stats, hoptimize, -, -, hpropagate, hfold⟩ := exists_optimize t (ofTree root)
  obtain ⟨root', hoptimize', hg⟩ := shows_of_optimize t h hoptimize
  have hfixed : root'.outcome t = root' := hg.outcome_eq fun p => by
    cases p with
    | propagation => exact congrArg (fun r : Counted Graph => r.value.toTree) hpropagate
    | folding => exact congrArg (fun r : Counted Graph => r.value.toTree) hfold
  refine ⟨g, stats, hoptimize, ?_⟩
  calc (Pass.allOnGraph t ps (ofTree root)).toTree
      = Pass.allOnTree t ps root := hschedule.toTree
    _ = (Pass.allOnTree t ps root).outcome t := (hschedule.outcome_eq hend).symm
    _ = root.outcome t := Pass.outcome_allOnTree t ps root
    _ = root'.outcome t := (outcome_optimize hoptimize').symm
    _ = root' := hfixed
    _ = g.toTree := hg.toTree.symm

/-- A row of passes that begins with folding, where there is nothing to fold yet. -/
theorem toTree_eq_of_schedule_folding_first : ∃ raw root table, Node.ofRaw? raw = .ok root ∧
    SymbolTable.ofTree? root = .ok table ∧
    let g := Pass.allOnGraph table [.folding, .propagation, .folding] (ofTree root)
    (∀ p : Pass, (p.onGraph table g).toTree = g.toTree) ∧
      ∃ g' stats, (ofTree root).optimize table = .ok (g', stats) ∧ g.toTree = g'.toTree := by
  obtain ⟨root, table, h, hidle⟩ := Accepted.exists_of_any
    "class A{int f(){int a;a=1;return a+1;}}"
    (fun root table =>
      let g := Pass.allOnGraph table [.folding, .propagation, .folding] (ofTree root)
      (g.propagateConstants table).count = 0 ∧ g.foldConstants.count = 0)
    (by decide +kernel)
  obtain ⟨raw, -, hread⟩ := h.tree
  obtain ⟨hpropagate, hfold⟩ := of_decide_eq_true hidle
  have hend (p : Pass) : (p.onGraph table (Pass.allOnGraph table
      [.folding, .propagation, .folding] (ofTree root))).toTree = (Pass.allOnGraph table
        [.folding, .propagation, .folding] (ofTree root)).toTree := by
    cases p with
    | propagation => exact congrArg toTree ((spent_propagateConstants table _).2 hpropagate)
    | folding => exact congrArg toTree ((spent_foldConstants _).2 hfold)
  exact ⟨raw, root, table, hread, h.declared, hend,
    toTree_eq_of_schedule hread table [.folding, .propagation, .folding] hend⟩

end Graph

end MiniJava
