import MiniJava.Proofs.Optimize.Rounds
import MiniJava.Proofs.Tree.WellFormed

/-!
# Relations that go from parts to wholes

A relation between trees is a `Congruence` if it goes from the children of a node to the node: it
holds of two nodes that are the same but for their children, if the children are related one by one.

If a congruence relates every name to a literal in its place, it relates a program to what a pass of
propagation makes of it (`Congruence.propagateConstants`). So what a pass keeps has to be looked at
only where it replaces something.
-/

namespace MiniJava

namespace Node

/-- The relation goes from the children of a node to the node. -/
structure Congruence (R : Node → Node → Prop) : Prop where
  of_children {i : Nat} {p : Position} {k : Kind (Node × Node)} (h : ∀ x ∈ k.children, R x.1 x.2) :
    R ⟨i, p, k.map Prod.fst⟩ ⟨i, p, k.map Prod.snd⟩

namespace Congruence

variable {R : Node → Node → Prop} {n : Node}

theorem mapChildren (hR : Congruence R) {f : Node → Node} (h : ∀ c ∈ n.children, R c (f c)) :
    R n (n.mapChildren f) := by
  obtain ⟨i, p, k⟩ := n
  have hpairs : ∀ x ∈ (k.map fun c => (c, f c)).children, R x.1 x.2 := by
    rw [Kind.children_map]
    exact List.forall_mem_map.mpr h
  have hnode := hR.of_children (i := i) (p := p) hpairs
  rwa [Kind.map_fst_pairs, Kind.map_map] at hnode

protected theorem refl (hR : Congruence R) (n : Node) : R n n := by
  induction n using Node.induction with
  | step n ih =>
    have h := hR.mapChildren (f := fun c => c) ih
    rwa [mapChildren_of_forall fun _ _ => rfl] at h

/-- Nodes that stay, as pairs. -/
theorem same (hR : Congruence R) (ns : List Node) : ∀ x ∈ ns.map fun n => (n, n), R x.1 x.2 :=
  List.forall_mem_map.mpr fun n _ => hR.refl n

/-! ## Propagation -/

/-- Statements that follow each other are related to what propagation makes of them if each is. -/
theorem forall₂_propagateAll {tracked : List String} {ns : List Node}
    (h : ∀ n ∈ ns, ∀ k, R n (n.propagate tracked k).value.1) (k : Known) :
    List.Forall₂ R ns (propagateAll tracked k ns).value.1 := by
  induction ns generalizing k with
  | nil => exact .nil
  | cons n ns ih =>
    obtain ⟨hn, hns⟩ := List.forall_mem_cons.mp h
    exact .cons (hn k) (ih hns _)

section Propagation

variable (hR : Congruence R) (hname : ∀ (i : Nat) (p : Position) (name : String) (c : Constant),
  R ⟨i, p, .varRef name⟩ ⟨i, p, c.toKind⟩)
include hR hname

theorem substitute (k : Known) (n : Node) : R n (n.substitute k).value := by
  induction n using Node.induction with
  | step n ih =>
    by_cases hlabel : n.label = .varRef
    · obtain ⟨i, p, kind⟩ := n
      cases kind with
      | varRef name =>
        unfold Node.substitute
        cases k.get? name with
        | none => exact hR.refl _
        | some c => exact hname i p name c
      | _ => cases hlabel
    · rcases substitute_cases k n hlabel with h | ⟨h, -⟩ <;> rw [h]
      · exact hR.refl n
      · exact hR.mapChildren ih

theorem propagate (tracked : List String) (n : Node) (k : Known) :
    R n (n.propagate tracked k).value.1 := by
  induction n using Node.induction generalizing k with
  | step n ih =>
    have exprs : R n (n.mapChildren fun c => (c.substitute k).value) :=
      hR.mapChildren fun c _ => hR.substitute hname k c
    obtain ⟨i, p, kind⟩ := n
    cases kind with
    | assign | arrayAssign | exprStmt => exact exprs
    | returning value => cases value <;> exact exprs
    | ifElse c thenBranch elseBranch =>
      have hc := hR.substitute hname k c
      have hthen := ih thenBranch mem_second k
      cases elseBranch with
      | none =>
        refine hR.of_children (k := .ifElse (c, _) (thenBranch, _) none) ?_
        exact List.forall_mem_cons.mpr ⟨hc, List.forall_mem_singleton.mpr hthen⟩
      | some elseBranch =>
        have helse := ih elseBranch mem_third k
        refine hR.of_children (k := .ifElse (c, _) (thenBranch, _) (some (elseBranch, _))) ?_
        exact List.forall_mem_cons.mpr ⟨hc, List.forall_mem_cons.mpr
          ⟨hthen, List.forall_mem_singleton.mpr helse⟩⟩
    | whileLoop c body =>
      have hc := hR.substitute hname (k.eraseAll body.assignedNames) c
      have hbody := ih body mem_second (k.eraseAll body.assignedNames)
      refine hR.of_children (k := .whileLoop (c, _) (body, _)) ?_
      exact List.forall_mem_cons.mpr ⟨hc, List.forall_mem_singleton.mpr hbody⟩
    | block statements =>
      have hall : List.Forall₂ R statements (propagateAll tracked k statements).value.1 :=
        forall₂_propagateAll ih k
      obtain ⟨cs, hfst, hsnd, hcs⟩ := exists_pairs hall
      change R ⟨i, p, .block statements⟩
        ⟨i, p, .block (propagateAll tracked k statements).value.1⟩
      rw [← hsnd, ← hfst]
      exact hR.of_children (k := .block cs) hcs
    | _ => exact hR.refl _

theorem propagateMethod (t : SymbolTable) (n : Node) :
    R n (MiniJava.propagateMethod t n).value := by
  obtain ⟨i, p, kind⟩ := n
  cases kind with
  | methodDecl head params locals body =>
    obtain ⟨cs, hfst, hsnd, hcs⟩ := exists_pairs
      (forall₂_propagateAll (fun n _ k => hR.propagate hname (trackedNames t head) n k) {})
    have hnode := hR.of_children (i := i) (p := p)
      (k := .methodDecl head (params.map fun n => (n, n)) (locals.map fun n => (n, n)) cs)
      (List.forall_mem_append.mpr
        ⟨List.forall_mem_append.mpr ⟨hR.same params, hR.same locals⟩, hcs⟩)
    simp only [Kind.map, List.map_map, Function.comp_def, List.map_id'] at hnode
    rwa [hfst, hsnd] at hnode
  | _ => exact hR.refl _

theorem propagateItems (t : SymbolTable) (items : List Node) :
    List.Forall₂ R items (MiniJava.propagateItems t items).value := by
  induction items with
  | nil => exact .nil
  | cons n ns ih =>
    obtain ⟨i, p, kind⟩ := n
    cases kind with
    | classDecl name superclass fields methods =>
      refine .cons ?_ (List.forall₂_same.mpr fun n _ => hR.refl n)
      let pass (m : Node) := (MiniJava.propagateMethod t m).value
      have hmethods : ∀ x ∈ methods.map fun m => (m, pass m), R x.1 x.2 :=
        List.forall_mem_map.mpr fun m _ => hR.propagateMethod hname t m
      have hnode := hR.of_children (i := i) (p := p) (k := .classDecl name superclass
        (fields.map fun n => (n, n)) (methods.map fun m => (m, pass m)))
        (List.forall_mem_append.mpr ⟨hR.same fields, hmethods⟩)
      simp only [Kind.map, List.map_map, Function.comp_def, List.map_id'] at hnode
      rwa [← Counted.value_mapM] at hnode
    | _ => exact .cons (hR.refl _) ih

/-- **What is kept where a name becomes a literal is kept by a pass of propagation.** -/
theorem propagateConstants (t : SymbolTable) (root : Node) :
    R root (MiniJava.propagateConstants t root).value := by
  obtain ⟨i, p, kind⟩ := root
  cases kind with
  | program items =>
    obtain ⟨cs, hfst, hsnd, hcs⟩ := exists_pairs (hR.propagateItems hname t items)
    change R ⟨i, p, .program items⟩ ⟨i, p, .program (MiniJava.propagateItems t items).value⟩
    rw [← hsnd, ← hfst]
    exact hR.of_children (k := .program cs) hcs
  | _ => exact hR.refl _

end Propagation

end Congruence

end Node

end MiniJava
