import MiniJava.Proofs.Typing.Sites

/-!
# What the checks look at

The rules of typing and of names look at a node and at the types of its children, each with what the
node demands of it, and at whether a child is a call. So a node of the same kind passes them as well
if its children have the same types in this sense (`Scope.SameType`): `checkTypesAt_eq_nil`,
`checkNamesAt_eq_nil`.

The second scope may know the demands on calls from elsewhere, from a graph for example, where the
first has them handed down.
-/

namespace MiniJava

namespace Scope

/-- The scope in which the demands on calls are known in another way. -/
def withPlaced (sc : Scope) (p : Option (Nat → Ty)) : Scope := { sc with placed := p }

/-- Where the demands on calls are known, none has to be handed down. -/
theorem typeOf?_withPlaced_some (sc : Scope) (demandAt : Nat → Ty) (d d' : Ty) (n : Node) :
    (sc.withPlaced (some demandAt)).typeOf? d n = (sc.withPlaced (some demandAt)).typeOf? d' n := by
  induction n using Node.induction with
  | step n ih =>
    obtain ⟨i, p, k⟩ := n
    cases k with
    | paren inner => exact ih inner List.mem_cons_self
    | arrayLit elements => cases elements <;> rfl
    | _ => rfl

/-- **Types are the same when the demands on calls are known from elsewhere**, if these are the demands
of the tree. -/
theorem typeOf?_withPlaced {t : SymbolTable} {sc : Scope} {demandAt : Nat → Ty} {n : Node} {d : Ty}
    (hplaced : sc.placed = none)
    (h : ∀ s ∈ sitesWithin t n (some sc) d, s.scope = sc → s.node.label = .call →
      demandAt s.node.id = s.demand) :
    (sc.withPlaced (some demandAt)).typeOf? d n = sc.typeOf? d n := by
  induction n using Node.induction generalizing d with
  | step n ih =>
    by_cases hlabel : n.label = .methodDecl
    · obtain ⟨i, p, k⟩ := n
      cases k with
      | methodDecl => rfl
      | _ => cases hlabel
    · have hscope := n.scopeWithin_of_not_method t (some sc) hlabel
      have child {x : Node × Ty} (hx : x ∈ n.children.zip (sc.demands d n)) :
          (sc.withPlaced (some demandAt)).typeOf? x.2 x.1 = sc.typeOf? x.2 x.1 :=
        ih x.1 (List.of_mem_zip hx).1 fun s hs =>
          h s ((mem_sitesWithin_some hscope).mpr (.inr ⟨x, hx, hs⟩))
      have self := h ⟨sc, d, n⟩ ((mem_sitesWithin_some hscope).mpr (.inl rfl)) rfl
      obtain ⟨i, p, k⟩ := n
      cases k with
      | unary op e => exact child (x := (e, .boolean)) List.mem_cons_self
      | paren inner => exact child (x := (inner, d)) List.mem_cons_self
      | arrayAccess array index =>
        exact congrArg (Option.map Ty.element)
          (child (x := (array, .intArray)) List.mem_cons_self)
      | arrayLit elements =>
        cases elements with
        | nil => rfl
        | cons e es =>
          have he := child (x := (e, sc.firstKnown (e :: es))) List.mem_cons_self
          rw [typeOf?_withPlaced_some sc demandAt _ .int, sc.typeOf?_firstKnown] at he
          have hfirst : sc.typeOf? d ⟨i, p, .arrayLit (e :: es)⟩ =
              (sc.typeOf? (sc.firstKnown es) e).map Ty.array := by
            simp only [typeOf?, hplaced]
            rfl
          rw [hfirst, ← he]
          rfl
      | call receiver method arguments =>
        have hr : (sc.withPlaced (some demandAt)).typeOf? .object receiver =
            sc.typeOf? .object receiver :=
          child (x := (receiver, .object)) List.mem_cons_self
        have hdemand : demandAt i = d := self rfl
        simp only [typeOf?, hplaced]
        rw [hr]
        simp only [withPlaced, hdemand]
        rfl
      | _ => rfl

/-- Two expressions are both calls or neither, and when this is demanded of them, the second has in
the scope with other demands the type of the first. -/
structure SameType (sc : Scope) (p : Option (Nat → Ty)) (d : Ty) (n n' : Node) : Prop where
  isCall : n'.isCall = n.isCall
  type : (sc.withPlaced p).typeOf? d n' = sc.typeOf? d n

variable {sc : Scope} {p : Option (Nat → Ty)}

namespace SameType

variable {d : Ty} {m m' n n' : Node} {cs : List (Node × Node)}

/-- What is demanded does not matter if the expressions are no calls. -/
theorem of_not_isCall (h : sc.SameType p d n n') (hcall : n.isCall = false) (d' : Ty) :
    sc.SameType p d' n n' := by
  refine ⟨h.isCall, ?_⟩
  rw [typeOf?_eq_of_not_isCall (h.isCall.trans hcall) d' d, h.type,
    typeOf?_eq_of_not_isCall hcall d' d]

theorem siblingDemand (h : sc.SameType p d n n') :
    (sc.withPlaced p).siblingDemand n' = sc.siblingDemand n := by
  unfold Scope.siblingDemand
  cases hcall : n.isCall with
  | true => rw [if_pos (h.isCall.trans hcall), if_pos rfl]
  | false =>
    rw [h.isCall, hcall, if_neg Bool.false_ne_true, if_neg Bool.false_ne_true,
      (h.of_not_isCall hcall .int).type]

theorem operandDemands {dl dr : Ty} (hl : sc.SameType p dl m m') (hr : sc.SameType p dr n n')
    (op : BinaryOp) : (sc.withPlaced p).operandDemands op m' n' = sc.operandDemands op m n := by
  unfold Scope.operandDemands
  rw [hl.siblingDemand, hr.siblingDemand]

theorem firstKnown (h : ∀ c ∈ cs, ∃ d, sc.SameType p d c.1 c.2) :
    (sc.withPlaced p).firstKnown (cs.map Prod.snd) = sc.firstKnown (cs.map Prod.fst) := by
  induction cs with
  | nil => rfl
  | cons c cs ih =>
    obtain ⟨⟨d, hc⟩, hcs⟩ := List.forall_mem_cons.mp h
    simp only [List.map_cons, Scope.firstKnown, ih hcs, hc.isCall]
    cases hcall : c.1.isCall with
    | true => rfl
    | false => rw [(hc.of_not_isCall hcall .int).type]

theorem elementDemands (h : ∀ c ∈ cs, ∃ d, sc.SameType p d c.1 c.2) :
    (sc.withPlaced p).elementDemands (cs.map Prod.snd) = sc.elementDemands (cs.map Prod.fst) := by
  unfold Scope.elementDemands
  rw [firstKnown h, List.length_map, List.length_map]

theorem isLocalReceiver (h : sc.SameType p .object n n') :
    (sc.withPlaced p).isLocalReceiver n' = sc.isLocalReceiver n := by
  unfold Scope.isLocalReceiver
  rw [h.type]
  rfl

theorem argumentDemands (h : sc.SameType p .object n n') (method : String)
    (cs : List (Node × Node)) :
    (sc.withPlaced p).argumentDemands n' method (cs.map Prod.snd) =
      sc.argumentDemands n method (cs.map Prod.fst) := by
  unfold Scope.argumentDemands
  rw [h.isLocalReceiver, List.length_map, List.length_map]
  rfl

/-- Rows of expressions, each with what is demanded of it, have the same types. -/
theorem zipWith_typeOf? {ds : List Ty} (h : ∀ x ∈ cs.zip ds, sc.SameType p x.2 x.1.1 x.1.2) :
    (cs.map Prod.snd).zipWith (fun e d => (sc.withPlaced p).typeOf? d e) ds =
      (cs.map Prod.fst).zipWith (fun e d => sc.typeOf? d e) ds := by
  induction cs generalizing ds with
  | nil => rfl
  | cons c cs ih =>
    cases ds with
    | nil => rfl
    | cons d ds =>
      obtain ⟨hc, hcs⟩ := List.forall_mem_cons.mp h
      simp only [List.map_cons, List.zipWith_cons_cons]
      rw [hc.type, ih hcs]

end SameType

/-! ## Single rules -/

/-- No rule of structure looks at types. -/
theorem checkStructureAt_withPlaced (t : SymbolTable) (sc : Scope) (p : Option (Nat → Ty))
    (n : Node) :
    checkStructureAt t (some (sc.withPlaced p), n) = checkStructureAt t (some sc, n) := by
  obtain ⟨i, pos, k⟩ := n
  cases k <;> rfl

theorem checkCondition_eq_nil_iff {construct : Construct} {condition : Node} :
    sc.checkCondition construct condition = [] ↔
      ∀ t, sc.typeOf? .boolean condition = some t → t.isBoolean = true := by
  unfold checkCondition
  split <;> simp_all

theorem checkIndex_eq_nil_iff {index : Node} :
    sc.checkIndex index = [] ↔ ∀ t, sc.typeOf? .int index = some t → t.isInt = true := by
  unfold checkIndex
  split <;> simp_all

theorem checkArray_eq_nil_iff {array : Node} :
    sc.checkArray array = [] ↔ ∀ t, sc.typeOf? .intArray array = some t → t.isArray = true := by
  unfold checkArray
  split <;> simp_all

/-! ## All rules -/

section Node

variable {i : Nat} {pos : Position} {k : Kind (Node × Node)} {d : Ty}

/-- **The rules of typing look at the types of children only.** -/
theorem checkTypesAt_eq_nil
    (h : ∀ x ∈ k.children.zip (sc.demands d ⟨i, pos, k.map Prod.fst⟩),
      sc.SameType p x.2 x.1.1 x.1.2)
    (hcheck : sc.checkTypesAt ⟨i, pos, k.map Prod.fst⟩ = []) :
    (sc.withPlaced p).checkTypesAt ⟨i, pos, k.map Prod.snd⟩ = [] := by
  cases k with
  | binary op left right =>
    have hl : sc.SameType p (sc.operandDemands op left.1 right.1).1 left.1 left.2 :=
      h _ List.mem_cons_self
    have hr : sc.SameType p (sc.operandDemands op left.1 right.1).2 right.1 right.2 := h _ mem_second
    simp only [Kind.map, checkTypesAt, checkOperands] at hcheck ⊢
    rw [hl.operandDemands hr, hl.type, hr.type]
    exact hcheck
  | unary op operand =>
    have ho := (h _ List.mem_cons_self).type
    simp only [Kind.map, checkTypesAt] at hcheck ⊢
    rw [ho]
    exact hcheck
  | ifElse condition thenBranch elseBranch =>
    have hc := (h _ List.mem_cons_self).type
    exact checkCondition_eq_nil_iff.mpr (hc ▸ checkCondition_eq_nil_iff.mp hcheck)
  | whileLoop condition body =>
    have hc := (h _ List.mem_cons_self).type
    exact checkCondition_eq_nil_iff.mpr (hc ▸ checkCondition_eq_nil_iff.mp hcheck)
  | assign target value =>
    have hv : (sc.withPlaced p).typeOf? ((sc.withPlaced p).targetDemand target) value.2 = _ :=
      (h _ List.mem_cons_self).type
    simp only [Kind.map, checkTypesAt] at hcheck ⊢
    rw [hv]
    exact hcheck
  | arrayAssign target index value =>
    have hi := (h _ List.mem_cons_self).type
    have hv : (sc.withPlaced p).typeOf? ((sc.withPlaced p).elementDemand target) value.2 = _ :=
      (h _ mem_second).type
    obtain ⟨hindex, hcheck⟩ := List.append_eq_nil_iff.mp hcheck
    simp only [Kind.map, checkTypesAt]
    refine List.append_eq_nil_iff.mpr ⟨?_, ?_⟩
    · exact checkIndex_eq_nil_iff.mpr (hi ▸ checkIndex_eq_nil_iff.mp hindex)
    · rw [hv]
      exact hcheck
  | arrayAccess array index =>
    have ha := (h _ List.mem_cons_self).type
    have hi := (h _ mem_second).type
    obtain ⟨harray, hindex⟩ := List.append_eq_nil_iff.mp hcheck
    refine List.append_eq_nil_iff.mpr ⟨?_, ?_⟩
    · exact checkArray_eq_nil_iff.mpr (ha ▸ checkArray_eq_nil_iff.mp harray)
    · exact checkIndex_eq_nil_iff.mpr (hi ▸ checkIndex_eq_nil_iff.mp hindex)
  | arrayLength array =>
    have ha := (h _ List.mem_cons_self).type
    exact checkArray_eq_nil_iff.mpr (ha ▸ checkArray_eq_nil_iff.mp hcheck)
  | arrayLit elements =>
    replace h : ∀ x ∈ elements.zip (sc.elementDemands (elements.map Prod.fst)),
        sc.SameType p x.2 x.1.1 x.1.2 := h
    have hsome : ∀ c ∈ elements, ∃ d, sc.SameType p d c.1 c.2 := by
      intro c hc
      have hlength : elements.length = (sc.elementDemands (elements.map Prod.fst)).length := by
        simp [elementDemands]
      obtain ⟨d', hd'⟩ := exists_mem_zip hlength hc
      exact ⟨d', h _ hd'⟩
    simp only [Kind.map, checkTypesAt, checkElements] at hcheck ⊢
    rw [SameType.elementDemands hsome, SameType.zipWith_typeOf? h]
    exact hcheck
  | returning value =>
    cases value with
    | none => exact hcheck
    | some value =>
      have hv : (sc.withPlaced p).typeOf? (sc.withPlaced p).resultDemand value.2 = _ :=
        (h _ List.mem_cons_self).type
      simp only [Kind.map, Option.map_some, checkTypesAt] at hcheck ⊢
      rw [hv]
      exact hcheck
  | _ => rfl

/-- **The rules of names look at the types of children only.** -/
theorem checkNamesAt_eq_nil
    (h : ∀ x ∈ k.children.zip (sc.demands d ⟨i, pos, k.map Prod.fst⟩),
      sc.SameType p x.2 x.1.1 x.1.2)
    (hcheck : sc.checkNamesAt ⟨i, pos, k.map Prod.fst⟩ = []) :
    (sc.withPlaced p).checkNamesAt ⟨i, pos, k.map Prod.snd⟩ = [] := by
  cases k with
  | call receiver method arguments =>
    obtain ⟨hr, ha⟩ := List.forall_mem_cons.mp h
    replace hr : sc.SameType p .object receiver.1 receiver.2 := hr
    have htypes : (sc.withPlaced p).argumentTypes receiver.2 method (arguments.map Prod.snd) =
        sc.argumentTypes receiver.1 method (arguments.map Prod.fst) := by
      unfold argumentTypes
      rw [hr.argumentDemands]
      exact SameType.zipWith_typeOf? ha
    simp only [Kind.map, checkNamesAt, checkCall, checkArguments, List.length_map] at hcheck ⊢
    rw [hr.type, hr.isLocalReceiver, htypes]
    exact hcheck
  | _ => exact hcheck

end Node

end Scope

end MiniJava
