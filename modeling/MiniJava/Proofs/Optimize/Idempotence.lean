import MiniJava.Proofs.Optimize.Schedule
import MiniJava.Session

/-!
# One pass finds all there is to find

Propagation replaces the variables of a statement before it learns from it, so a pass goes by what
it has replaced itself: when it is run again it knows the same everywhere, and finds nothing to
replace (`Node.propagate_propagate`). Folding goes from the leaves upwards, so nothing is left to
fold either (`Node.folded_folded`).

The same holds in a session, whose passes work on the graph of the program (`Pass.inSession_again`):
there a second pass leaves the table of nodes and the numbers of replacements alone. The main result
is `Pass.idempotent`, for each tree that has been read.
-/

namespace MiniJava

namespace Node

variable {k : Known} {tracked : List String}

/-! ## Propagation -/

theorem substituted_self (k : Known) (n : Node) :
    (n.substituted k).substituted k = n.substituted k :=
  substituted_substituted (fun _ _ h => h) n

theorem propagateAll_propagateAll {ns : List Node}
    (h : ∀ n ∈ ns, ∀ k, ((n.propagate tracked k).value.1.propagate tracked k).value =
      (n.propagate tracked k).value) (k : Known) :
    (propagateAll tracked k (propagateAll tracked k ns).value.1).value =
      (propagateAll tracked k ns).value := by
  induction ns generalizing k with
  | nil => rfl
  | cons n ns ih =>
    obtain ⟨hn, hns⟩ := List.forall_mem_cons.mp h
    have hrest := ih hns (n.propagate tracked k).value.2
    change (propagateAll tracked k ((n.propagate tracked k).value.1 :: _)).value = _
    simp only [propagateAll, Counted.value_bind, Counted.value_pure, hn k, hrest]

/-- **A second pass through a statement replaces nothing**, and knows the same behind it. -/
theorem propagate_propagate (n : Node) (k : Known) :
    ((n.propagate tracked k).value.1.propagate tracked k).value =
      (n.propagate tracked k).value := by
  induction n using induction generalizing k with
  | step n ih =>
    obtain ⟨i, p, kind⟩ := n
    cases kind with
    | assign target value =>
      have hvalue : (value.substituted k).substituted k = value.substituted k :=
        substituted_self k value
      exact congrArg (fun v => (Node.mk i p (.assign target v),
        k.assign tracked target v.literal?)) hvalue
    | arrayAssign target index value =>
      exact congrArg₂ (fun e v => (Node.mk i p (.arrayAssign target e v), k))
        (substituted_self k index) (substituted_self k value)
    | returning value =>
      cases value with
      | none => rfl
      | some value =>
        exact congrArg (fun v => (Node.mk i p (.returning (some v)), k)) (substituted_self k value)
    | exprStmt e => exact congrArg (fun e => (Node.mk i p (.exprStmt e), k)) (substituted_self k e)
    | ifElse c t e =>
      have hthen := ih t mem_second k
      cases e with
      | none =>
        exact congrArg₂ (fun c t => (Node.mk i p (.ifElse c t.1 none), t.2.meet k))
          (substituted_self k c) hthen
      | some e =>
        have helse := ih e mem_third k
        have hvalue := congr (congrArg₂ (fun c (t e : Node × Known) =>
          (Node.mk i p (.ifElse c t.1 (some e.1)), t.2.meet e.2)) (substituted_self k c) hthen)
          helse
        exact hvalue
    | whileLoop c body =>
      have hbody := ih body mem_second (k.eraseAll body.assignedNames)
      change (Node.propagate tracked k ⟨i, p, .whileLoop (c.substituted _) _⟩).value = _
      simp only [propagate, assignedNames_propagate, Counted.value_bind, Counted.value_pure, hbody]
      exact congrArg (fun c => (Node.mk i p (.whileLoop c _), _)) (substituted_self _ c)
    | block statements =>
      exact congrArg (fun r => (Node.mk i p (.block r.1), r.2)) (propagateAll_propagateAll ih k)
    | _ => rfl

/-- A second pass through a method replaces nothing. -/
theorem propagateMethod_propagateMethod (t : SymbolTable) (n : Node) :
    (propagateMethod t (propagateMethod t n).value).value = (propagateMethod t n).value := by
  obtain ⟨i, p, kind⟩ := n
  cases kind with
  | methodDecl head params locals body =>
    let tracked := trackedNames t head
    have hbody : (propagateAll tracked {} (propagateAll tracked {} body).value.1).value =
        (propagateAll tracked {} body).value :=
      propagateAll_propagateAll (fun n _ k => propagate_propagate n k) {}
    exact congrArg (fun r : List Node × Known => Node.mk i p (.methodDecl head params locals r.1))
      hbody
  | _ => rfl

/-- A pass that counts what it takes from a measure counts nothing where it changes nothing. -/
theorem eq_pure_of_value_eq {pass : Node → Counted Node} {μ : Node → Nat}
    (hpass : ∀ n, (pass n).count + μ (pass n).value = μ n) {n : Node} (h : (pass n).value = n) :
    pass n = pure n := by
  have hcount := hpass n
  rw [h] at hcount
  exact Counted.eq_pure h (Nat.add_eq_right.mp hcount)

/-- **A second pass of propagation finds nothing.** -/
theorem propagateConstants_again (t : SymbolTable) (root : Node) :
    propagateConstants t (propagateConstants t root).value =
      pure (propagateConstants t root).value := by
  refine eq_pure_of_value_eq (count_propagateConstants t) ?_
  rw [value_propagateConstants, value_propagateConstants, mapMethods_mapMethods]
  simp only [propagateMethod_propagateMethod]

/-- **A second pass of folding finds nothing.** -/
theorem foldConstants_again (n : Node) :
    foldConstants (foldConstants n).value = pure (foldConstants n).value :=
  eq_pure_of_value_eq count_fold (folded_folded n)

end Node

/-! ## Passes -/

namespace Pass

variable (t : SymbolTable) (p : Pass) {g : Graph} {n : Node}

/-- The tree after a pass, and the number of replacements. -/
def run : Pass → Node → Counted Node
  | propagation => propagateConstants t
  | folding => foldConstants

/-- The graph after a pass, and the number of replacements. -/
def runOnGraph : Pass → Graph → Counted Graph
  | propagation => Graph.propagateConstants t
  | folding => Graph.foldConstants

/-- The session after a pass, and whether the pass changed the program. -/
def inSession : Pass → Session → Session × Bool
  | propagation => Session.propagate
  | folding => Session.fold

/-- The session after some passes in a row. -/
def allInSession (ps : List Pass) (s : Session) : Session :=
  ps.foldl (fun s p => (p.inSession s).1) s

theorem run_again (n : Node) : p.run t (p.run t n).value = pure (p.run t n).value := by
  cases p with
  | propagation => exact n.propagateConstants_again t
  | folding => exact n.foldConstants_again

theorem runOnGraph_shows (h : g.Shows n) :
    (p.runOnGraph t g).count = (p.run t n).count ∧
      (p.runOnGraph t g).value.Shows (p.run t n).value := by
  cases p with
  | propagation => exact h.propagateConstants t
  | folding => exact h.foldConstants

theorem runOnGraph_eq_pure (h : (p.runOnGraph t g).count = 0) : p.runOnGraph t g = pure g := by
  cases p with
  | propagation => exact Counted.eq_pure ((Graph.spent_propagateConstants t g).2 h) h
  | folding => exact Counted.eq_pure ((Graph.spent_foldConstants g).2 h) h

/-- Where a tree is shown, a second pass leaves the whole table alone. -/
theorem runOnGraph_again (h : g.Shows n) :
    p.runOnGraph t (p.runOnGraph t g).value = pure (p.runOnGraph t g).value := by
  refine p.runOnGraph_eq_pure t ?_
  rw [(p.runOnGraph_shows t (p.runOnGraph_shows t h).2).1, p.run_again]
  rfl

/-- Where a tree is shown, a pass counts something if and only if it changes the tree. -/
theorem isChanged_iff (h : g.Shows n) :
    ((p.run t n).isChanged = true ↔ (p.run t n).value ≠ n) := by
  have hcount : (p.run t n).count = 0 ↔ (p.run t n).value = n := by
    constructor
    · intro hzero
      have hsame := p.runOnGraph_eq_pure t ((p.runOnGraph_shows t h).1.trans hzero)
      have hshows := (p.runOnGraph_shows t h).2
      rw [hsame] at hshows
      exact hshows.toTree.symm.trans h.toTree
    · intro hvalue
      have hagain := p.run_again t n
      rw [hvalue] at hagain
      rw [hagain]
      rfl
  rw [ne_eq, ← hcount, Counted.isChanged_iff, Nat.pos_iff_ne_zero]

/-! ## Sessions -/

variable {t} {s : Session}

theorem table_inSession (s : Session) : (p.inSession s).1.table = s.table := by
  cases p <;> rfl

theorem graph_inSession (s : Session) :
    (p.inSession s).1.graph = (p.runOnGraph s.table s.graph).value := by
  cases p <;> rfl

theorem inSession_snd (s : Session) :
    (p.inSession s).2 = (p.runOnGraph s.table s.graph).isChanged := by
  cases p <;> rfl

/-- A pass that finds nothing leaves the session as it is, and says so. -/
theorem inSession_of_eq_pure (h : p.runOnGraph s.table s.graph = pure s.graph) :
    p.inSession s = (s, false) := by
  cases p with
  | propagation =>
    have h : s.graph.propagateConstants s.table = pure s.graph := h
    simp only [inSession, Session.propagate, h]
    rfl
  | folding =>
    have h : s.graph.foldConstants = pure s.graph := h
    simp only [inSession, Session.fold, h]
    rfl

/-- After passes in a row, the graph of a session shows a tree if it did before. -/
theorem shows_allInSession (ps : List Pass) (h : s.graph.Shows n) :
    ∃ n', (allInSession ps s).graph.Shows n' := by
  induction ps generalizing s n with
  | nil => exact ⟨n, h⟩
  | cons p ps ih =>
    refine ih (n := (p.run s.table n).value) ?_
    rw [graph_inSession]
    exact (p.runOnGraph_shows s.table h).2

/-- **Each pass finds at once all there is to find.** -/
theorem inSession_again (h : s.graph.Shows n) :
    p.inSession (p.inSession s).1 = ((p.inSession s).1, false) ∧
      ((p.inSession s).2 = true ↔ (p.inSession s).1.tree ≠ s.tree) := by
  constructor
  · apply inSession_of_eq_pure
    rw [table_inSession, graph_inSession]
    exact p.runOnGraph_again s.table h
  · have hshows := (p.runOnGraph_shows s.table h).2
    have hcount := (p.runOnGraph_shows s.table h).1
    have hiff := p.isChanged_iff s.table h
    rw [Session.tree, Session.tree, graph_inSession, hshows.toTree, h.toTree, inSession_snd, ← hiff,
      Counted.isChanged_iff, Counted.isChanged_iff, hcount]

/-- **Each pass is idempotent.** When a pass over a tree that has been read is run again, it counts
nothing and leaves the tree as it is; and it counts something if and only if it changes the tree. In
a session on the tree, after any passes in a row, the second run leaves everything as it is and says
so, and a run says that it changed the program if and only if it did. -/
theorem idempotent {raw : RawNode} {root : Node} (h : Node.ofRaw? raw = .ok root) (t : SymbolTable)
    (p : Pass) :
    (p.run t (p.run t root).value = pure (p.run t root).value ∧
      ((p.run t root).isChanged = true ↔ (p.run t root).value ≠ root)) ∧
    ∀ ps : List Pass, let s := allInSession ps (.start root t)
      p.inSession (p.inSession s).1 = ((p.inSession s).1, false) ∧
        ((p.inSession s).2 = true ↔ (p.inSession s).1.tree ≠ s.tree) := by
  have hroot : (Session.start root t).graph.Shows root :=
    Graph.shows_ofTree h
  refine ⟨⟨p.run_again t root, p.isChanged_iff t hroot⟩, fun ps => ?_⟩
  obtain ⟨n, hn⟩ := shows_allInSession ps hroot
  exact p.inSession_again hn

/-- A chain of copies through a loop, of which propagation replaces three at once. -/
theorem idempotent_copies : ∃ raw root table, Node.ofRaw? raw = .ok root ∧
    (propagation.inSession (.start root table)).1.propagated = 3 ∧
    ((propagation.run table (propagation.run table root).value =
        pure (propagation.run table root).value ∧
      ((propagation.run table root).isChanged = true ↔
        (propagation.run table root).value ≠ root)) ∧
    ∀ ps : List Pass, let s := allInSession ps (.start root table)
      propagation.inSession (propagation.inSession s).1 = ((propagation.inSession s).1, false) ∧
        ((propagation.inSession s).2 = true ↔ (propagation.inSession s).1.tree ≠ s.tree)) := by
  obtain ⟨root, table, h, hcount⟩ := Accepted.exists_of_any
    "class A{int f(boolean p){int a;int b;a=1;while(p)b=a;b=a;return b;}}"
    (fun root table => (propagation.inSession (.start root table)).1.propagated = 3)
    (by decide +kernel)
  obtain ⟨raw, -, hread⟩ := h.tree
  exact ⟨raw, root, table, hread, of_decide_eq_true hcount, idempotent hread table propagation⟩

end Pass

end MiniJava
