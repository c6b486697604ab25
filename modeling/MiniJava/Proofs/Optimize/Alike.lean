import MiniJava.Proofs.Lowering.Issued
import MiniJava.Proofs.Semantics.Source

/-!
# Replacing parts of a program

Two expressions are `Alike` if they have the same types and values, and both or neither are calls.
An expression whose parts are replaced by ones that are alike is alike (`Alike.map`), so passes that
replace expressions have to be justified only where they replace something. For statements there is
`SameRun`, with the same rule.

Values may be compared under a condition on the variables, since a pass may know some of them.
-/

namespace MiniJava

/-! ## Replacing children -/

namespace Kind

variable {α β γ : Type}

theorem map_map (g : β → γ) (f : α → β) (k : Kind α) :
    (k.map f).map g = k.map fun a => g (f a) := by
  cases k <;> simp [map, Function.comp_def]

theorem map_congr {f g : α → β} {k : Kind α} (h : ∀ a ∈ k.children, f a = g a) :
    k.map f = k.map g := by
  cases k with
  | returning value => cases value <;> simp_all [map, children]
  | ifElse condition thenBranch elseBranch => cases elseBranch <;> simp_all [map, children]
  | _ => simp_all [map, children]

theorem map_id_of_forall {f : α → α} {k : Kind α} (h : ∀ a ∈ k.children, f a = a) :
    k.map f = k := by
  rw [map_congr h]
  cases k <;> simp [map]

/-- The children are left when each stands beside what is made of it. -/
theorem map_fst_pairs (f : α → β) (k : Kind α) : (k.map fun a => (a, f a)).map Prod.fst = k := by
  rw [map_map, map_id_of_forall fun _ _ => rfl]

end Kind

namespace Node

/-- A node with its children replaced. -/
def mapChildren (f : Node → Node) (n : Node) : Node := { n with kind := n.kind.map f }

theorem children_mapChildren (f : Node → Node) (n : Node) :
    (n.mapChildren f).children = n.children.map f :=
  Kind.children_map f n.kind

theorem mapChildren_mapChildren (g f : Node → Node) (n : Node) :
    (n.mapChildren f).mapChildren g = n.mapChildren fun c => g (f c) :=
  congrArg (Node.mk n.id n.position) (Kind.map_map g f n.kind)

theorem mapChildren_congr {f g : Node → Node} {n : Node} (h : ∀ c ∈ n.children, f c = g c) :
    n.mapChildren f = n.mapChildren g :=
  congrArg (Node.mk n.id n.position) (Kind.map_congr h)

theorem mapChildren_of_forall {f : Node → Node} {n : Node} (h : ∀ c ∈ n.children, f c = c) :
    n.mapChildren f = n := by
  obtain ⟨i, p, k⟩ := n
  exact congrArg (Node.mk i p) (Kind.map_id_of_forall h)

end Node

namespace Scope

/-- Two expressions have the same types, and the same values if the variables fulfil a condition. -/
structure Alike (sc : Scope) (P : Vars → Prop) (n n' : Node) : Prop where
  isCall : n'.isCall = n.isCall
  type : ∀ d, sc.typeOf? d n' = sc.typeOf? d n
  value : ∀ w vars d, P vars → sc.eval w vars d n' = sc.eval w vars d n

namespace Alike

variable {sc : Scope} {P : Vars → Prop} {n n' n'' : Node} {f : Node → Node}
  {cs : List (Node × Node)}

theorem refl (sc : Scope) (P : Vars → Prop) (n : Node) : sc.Alike P n n :=
  ⟨rfl, fun _ => rfl, fun _ _ _ _ => rfl⟩

theorem trans (h : sc.Alike P n n') (h' : sc.Alike P n' n'') : sc.Alike P n n'' :=
  ⟨h'.isCall.trans h.isCall, fun d => (h'.type d).trans (h.type d),
    fun w vars d hP => (h'.value w vars d hP).trans (h.value w vars d hP)⟩

/-! ## Demands -/

theorem siblingDemand (h : sc.Alike P n n') : sc.siblingDemand n' = sc.siblingDemand n := by
  unfold Scope.siblingDemand
  rw [h.isCall, h.type]

theorem operandDemands {m m' : Node} (hm : sc.Alike P m m') (hn : sc.Alike P n n')
    (op : BinaryOp) : sc.operandDemands op m' n' = sc.operandDemands op m n := by
  unfold Scope.operandDemands
  rw [hm.siblingDemand, hn.siblingDemand]

theorem firstKnown (h : ∀ c ∈ cs, sc.Alike P c.1 c.2) :
    sc.firstKnown (cs.map Prod.snd) = sc.firstKnown (cs.map Prod.fst) := by
  induction cs with
  | nil => rfl
  | cons c cs ih =>
    obtain ⟨hc, hcs⟩ := List.forall_mem_cons.mp h
    simp only [List.map_cons, Scope.firstKnown]
    rw [hc.isCall, hc.type, ih hcs]

theorem elementDemands (h : ∀ c ∈ cs, sc.Alike P c.1 c.2) :
    sc.elementDemands (cs.map Prod.snd) = sc.elementDemands (cs.map Prod.fst) := by
  unfold Scope.elementDemands
  rw [firstKnown h, List.length_map, List.length_map]

theorem isLocalReceiver (h : sc.Alike P n n') : sc.isLocalReceiver n' = sc.isLocalReceiver n := by
  unfold Scope.isLocalReceiver
  rw [h.type]

theorem argumentDemands (h : sc.Alike P n n') (method : String) (cs : List (Node × Node)) :
    sc.argumentDemands n' method (cs.map Prod.snd) =
      sc.argumentDemands n method (cs.map Prod.fst) := by
  unfold Scope.argumentDemands
  rw [h.isLocalReceiver, List.length_map, List.length_map]

/-- The same arguments are packed. -/
theorem packing?_eq (hn : sc.Alike P n n') (h : ∀ c ∈ cs, sc.Alike P c.1 c.2) (method : String) :
    sc.packing? n' method (cs.map Prod.snd) = sc.packing? n method (cs.map Prod.fst) := by
  unfold packing?
  simp only [hn.isLocalReceiver, List.length_map, ← List.map_drop]
  generalize hlast : cs.drop (min (((sc.table.params? method).getD []).length - 1) cs.length) = last
  have hmem : ∀ c ∈ last, c ∈ cs := fun c hc => List.mem_of_mem_drop (hlast ▸ hc)
  match last with
  | [] => rfl
  | [a] =>
    simp only [List.map_cons, List.map_nil]
    rw [(h a (hmem a List.mem_cons_self)).type]
  | _ :: _ :: _ => rfl

/-- A node demands the same of parts that are alike. -/
theorem demands {i : Nat} {p : Position} {k : Kind (Node × Node)}
    (h : ∀ c ∈ k.children, sc.Alike P c.1 c.2) (d : Ty) :
    sc.demands d ⟨i, p, k.map Prod.snd⟩ = sc.demands d ⟨i, p, k.map Prod.fst⟩ := by
  have each {cs : List (Node × Node)} (d : Ty) :
      (cs.map Prod.snd).map (fun _ => d) = (cs.map Prod.fst).map fun _ => d := by
    rw [List.map_map, List.map_map]
    rfl
  cases k with
  | binary op left right =>
    have hl := h left List.mem_cons_self
    have hr := h right mem_second
    simp only [Kind.map, Scope.demands]
    rw [hl.operandDemands hr]
  | call receiver method arguments =>
    exact congrArg (Ty.object :: ·)
      ((h receiver List.mem_cons_self).argumentDemands method arguments)
  | arrayLit elements => exact elementDemands h
  | returning value => cases value <;> rfl
  | ifElse condition thenBranch elseBranch => cases elseBranch <;> rfl
  | program | block => exact each .int
  | classDecl | methodDecl =>
    simp only [Kind.map, Scope.demands, Node.children, Kind.children, ← List.map_append]
    exact each .int
  | _ => rfl

/-! ## Values -/

theorem evalEach {vars : Vars} (hP : P vars) (h : ∀ c ∈ cs, sc.Alike P c.1 c.2)
    (w : World Effect Val) (ds : List Ty) :
    sc.evalEach w vars ds (cs.map Prod.snd) = sc.evalEach w vars ds (cs.map Prod.fst) := by
  induction cs generalizing ds with
  | nil => rfl
  | cons c cs ih =>
    obtain ⟨hc, hcs⟩ := List.forall_mem_cons.mp h
    simp only [List.map_cons, Scope.evalEach]
    rw [hc.value w vars _ hP, ih hcs]

theorem passArguments (hn : sc.Alike P n n') (h : ∀ c ∈ cs, sc.Alike P c.1 c.2)
    (w : World Effect Val) (method : String) (values : List (Act Effect Val Val)) :
    sc.passArguments w n' method (cs.map Prod.snd) values =
      sc.passArguments w n method (cs.map Prod.fst) values := by
  unfold Scope.passArguments
  simp only [hn.isLocalReceiver, List.length_map, ← List.map_drop]
  generalize hlast : cs.drop (min (((sc.table.params? method).getD []).length - 1) cs.length) = last
  have hmem : ∀ c ∈ last, c ∈ cs := fun c hc => List.mem_of_mem_drop (hlast ▸ hc)
  match last with
  | [] => rfl
  | [a] =>
    simp only [List.map_cons, List.map_nil]
    rw [(h a (hmem a List.mem_cons_self)).type]
  | _ :: _ :: _ => rfl

/-- **Expressions of one kind whose parts are alike are alike.** -/
theorem of_pairs {i : Nat} {p : Position} {k : Kind (Node × Node)}
    (h : ∀ c ∈ k.children, sc.Alike P c.1 c.2) :
    sc.Alike P ⟨i, p, k.map Prod.fst⟩ ⟨i, p, k.map Prod.snd⟩ := by
  cases k with
  | unary op operand =>
    have ho := h operand List.mem_cons_self
    refine ⟨rfl, fun d => ho.type .boolean, fun w vars d hP => ?_⟩
    cases op
    simp only [Kind.map, eval]
    rw [ho.value w vars _ hP]
  | paren inner =>
    have hi := h inner List.mem_cons_self
    exact ⟨hi.isCall, hi.type, hi.value⟩
  | binary op left right =>
    have hl := h left List.mem_cons_self
    have hr := h right mem_second
    refine ⟨rfl, fun d => rfl, fun w vars d hP => ?_⟩
    simp only [Kind.map, eval]
    rw [operandDemands hl hr, hl.value w vars _ hP, hr.value w vars _ hP]
  | newArray element size =>
    have hs := h size List.mem_cons_self
    refine ⟨rfl, fun d => rfl, fun w vars d hP => ?_⟩
    simp only [Kind.map, eval]
    rw [hs.value w vars _ hP]
  | arrayAccess array index =>
    have ha := h array List.mem_cons_self
    have hi := h index mem_second
    refine ⟨rfl, fun d => ?_, fun w vars d hP => ?_⟩
    · simp only [Kind.map, typeOf?]
      rw [ha.type]
    · simp only [Kind.map, eval]
      rw [ha.value w vars _ hP, hi.value w vars _ hP]
  | arrayLength array =>
    have ha := h array List.mem_cons_self
    refine ⟨rfl, fun d => rfl, fun w vars d hP => ?_⟩
    simp only [Kind.map, eval]
    rw [ha.value w vars _ hP]
  | arrayLit elements =>
    have he : ∀ c ∈ elements, sc.Alike P c.1 c.2 := h
    have htype (d : Ty) : sc.typeOf? d ⟨i, p, .arrayLit (elements.map Prod.snd)⟩ =
        sc.typeOf? d ⟨i, p, .arrayLit (elements.map Prod.fst)⟩ := by
      cases elements with
      | nil => rfl
      | cons e es =>
        simp only [List.map_cons, typeOf?]
        rw [(h e List.mem_cons_self).type, firstKnown fun c hc => h c (List.mem_cons_of_mem e hc)]
    refine ⟨rfl, htype, fun w vars d hP => ?_⟩
    simp only [Kind.map, eval]
    rw [htype, elementDemands he, evalEach hP he]
  | call receiver method arguments =>
    have hr := h receiver List.mem_cons_self
    have ha : ∀ c ∈ arguments, sc.Alike P c.1 c.2 := fun c hc => h c (List.mem_cons_of_mem _ hc)
    refine ⟨rfl, fun d => ?_, fun w vars d hP => ?_⟩
    · simp only [Kind.map, typeOf?]
      rw [hr.type]
    · simp only [Kind.map, eval]
      rw [hr.value w vars _ hP, hr.argumentDemands, evalEach hP ha, hr.passArguments ha]
  | _ => exact ⟨rfl, fun _ => rfl, fun _ _ _ _ => rfl⟩

/-- **An expression whose parts are replaced by ones that are alike is alike.** -/
theorem map (h : ∀ c ∈ n.children, sc.Alike P c (f c)) : sc.Alike P n (n.mapChildren f) := by
  obtain ⟨i, p, k⟩ := n
  have hpairs : ∀ c ∈ (k.map fun c => (c, f c)).children, sc.Alike P c.1 c.2 := by
    rw [Kind.children_map]
    exact List.forall_mem_map.mpr h
  have halike := of_pairs (i := i) (p := p) hpairs
  rwa [Kind.map_fst_pairs, Kind.map_map] at halike

end Alike

/-! ## Statements -/

/-- Two statements do the same, whatever the values of the variables. -/
def SameRun (sc : Scope) (n n' : Node) : Prop :=
  ∀ w fuel vars h, sc.exec w fuel n' vars h = sc.exec w fuel n vars h

namespace SameRun

variable {sc : Scope} {f : Node → Node} {ns : List Node}

theorem execAll (h : ∀ c ∈ ns, sc.SameRun c (f c)) (w : World Effect Val) (fuel : Nat)
    (vars : Vars) (t : List Effect) :
    sc.execAll w fuel (ns.map f) vars t = sc.execAll w fuel ns vars t := by
  induction ns generalizing vars t with
  | nil => rfl
  | cons n ns ih =>
    obtain ⟨hn, hns⟩ := List.forall_mem_cons.mp h
    simp only [List.map_cons, Scope.execAll]
    rw [hn w fuel vars t]
    congr 1
    funext vars t
    exact ih hns vars t

/-- **A statement whose parts do the same or are alike does the same.** -/
theorem map {n : Node}
    (h : ∀ c ∈ n.children, sc.Alike (fun _ => True) c (f c) ∧ sc.SameRun c (f c)) :
    sc.SameRun n (n.mapChildren f) := by
  intro w fuel vars t
  have condition {c : Node} (hc : c ∈ n.children) :
      sc.evalCondition w (f c) = sc.evalCondition w c := by
    funext vars
    unfold evalCondition
    rw [(h c hc).1.value w vars _ trivial]
  obtain ⟨i, p, k⟩ := n
  cases k with
  | assign target value =>
    simp only [Node.mapChildren, Kind.map, exec]
    rw [(h value List.mem_cons_self).1.value w vars _ trivial]
  | arrayAssign target index value =>
    simp only [Node.mapChildren, Kind.map, exec]
    rw [(h index List.mem_cons_self).1.value w vars _ trivial,
      (h value mem_second).1.value w vars _ trivial]
  | returning value =>
    cases value with
    | none => rfl
    | some value =>
      simp only [Node.mapChildren, Kind.map, Option.map_some, exec]
      rw [(h value List.mem_cons_self).1.value w vars _ trivial]
  | ifElse c thenBranch elseBranch =>
    have hthen := (h thenBranch mem_second).2
    cases elseBranch with
    | none =>
      simp only [Node.mapChildren, Kind.map, Option.map_none, exec]
      rw [condition List.mem_cons_self]
      congr 1
      funext b t
      rw [hthen w fuel vars t]
    | some elseBranch =>
      have helse := (h elseBranch mem_third).2
      simp only [Node.mapChildren, Kind.map, Option.map_some, exec]
      rw [condition List.mem_cons_self]
      congr 1
      funext b t
      rw [hthen w fuel vars t, helse w fuel vars t]
  | whileLoop c body =>
    simp only [Node.mapChildren, Kind.map, exec]
    rw [condition List.mem_cons_self]
    congr 1
    funext vars t
    exact (h body mem_second).2 w fuel vars t
  | block statements =>
    simp only [Node.mapChildren, Kind.map, exec]
    exact execAll (fun c hc => (h c hc).2) w fuel vars t
  | exprStmt e =>
    simp only [Node.mapChildren, Kind.map, exec]
    rw [(h e List.mem_cons_self).1.value w vars _ trivial]
  | _ => rfl

end SameRun

end Scope

end MiniJava
