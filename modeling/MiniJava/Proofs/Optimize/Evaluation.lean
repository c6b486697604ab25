import MiniJava.Proofs.Optimize.Idempotence

/-!
# What folding computes

The reference is an evaluator of expressions without variables, `Node.value?`. It computes both
operands of every operator, also of `&&` and `||`, and there is no value if an operand has none, for
a division by zero, and for operands that do not fit the operator. Its arithmetic is that of the
integers, of which the low 32 bits are kept.

A pass of folding puts literals for the largest parts of a tree that have a value, and for nothing
else, and it counts the operations and parentheses that have one (`Session.fold_evaluates`).
-/

namespace MiniJava

/-! ## Strict evaluation -/

/-- An operator on two values, both of which are computed whatever the operator. -/
def BinaryOp.strict? (op : BinaryOp) : Val → Val → Option Val
  | .int a, .int b => (op.onInts a.toInt b.toInt).toOption
  | .bool a, .bool b =>
    match op with
    | .and => some (.bool (a && b))
    | .or => some (.bool (a || b))
    | op => (op.onEqual (a == b)).toOption
  | _, _ => none

/-- The negation of a truth value. -/
def Val.negation? : Val → Option Val
  | bool b => some (bool !b)
  | _ => none

namespace Node

/-- The value of an expression made of literals, operators and parentheses. -/
def value? : Node → Option Val
  | ⟨_, _, .intLit value⟩ => some (.int value)
  | ⟨_, _, .boolLit value⟩ => some (.bool value)
  | ⟨_, _, .binary op left right⟩ => do op.strict? (← left.value?) (← right.value?)
  | ⟨_, _, .unary .not operand⟩ => do (← operand.value?).negation?
  | ⟨_, _, .paren inner⟩ => inner.value?
  | _ => none
termination_by structural n => n

/-- In the second tree the largest parts of the first that have a value are the literals of their
values, and everything else is as in the first. -/
inductive Evaluated : Node → Node → Prop where
  | literal {n : Node} {c : Constant} (h : n.value? = some c.toVal) : Evaluated n (n.become c)
  | keep {i : Nat} {p : Position} {k : Kind (Node × Node)}
      (h : value? ⟨i, p, k.map Prod.fst⟩ = none) (below : ∀ x ∈ k.children, Evaluated x.1 x.2) :
      Evaluated ⟨i, p, k.map Prod.fst⟩ ⟨i, p, k.map Prod.snd⟩

/-- An operation or a parenthesis that has a value. -/
def isEvaluable (n : Node) : Bool :=
  decide (n.label ∈ [.binary, .unary, .paren]) && n.value?.isSome

end Node

/-! ## Operators -/

namespace Constant

theorem toVal_injective : Function.Injective toVal := by
  intro a b h
  cases a <;> cases b <;> cases h <;> rfl

/-- The compiler computes with constants what strict evaluation computes with their values. -/
theorem map_binary? (op : BinaryOp) (a b : Constant) :
    (binary? op a b).map toVal = op.strict? a.toVal b.toVal := by
  cases a with
  | int a =>
    cases b with
    | int b =>
      cases h : binaryInt? op a b with
      | some c =>
        simp only [binary?, h, toVal, BinaryOp.strict?, onInts_binaryInt? h]
        rfl
      | none =>
        -- Nothing is computed for a division by zero and for a logical operator.
        have hnone : (op.onInts a.toInt b.toInt).toOption = none := by
          cases op with
          | and | or => rfl
          | div =>
            simp only [binaryInt?] at h
            split at h
            · rename_i hzero
              rw [hzero]
              rfl
            · cases h
          | _ => cases h
        simp only [binary?, h, toVal, BinaryOp.strict?, hnone]
        rfl
    | bool b => rfl
  | bool a =>
    cases b with
    | int b => rfl
    | bool b => cases op <;> rfl

example : BinaryOp.div.strict? (.int (-2147483648)) (.int (-1)) = some (.int (-2147483648)) := by
  decide

end Constant

/-! ## Folding -/

namespace Node

variable {n : Node}

/-- A node whose parts are folded is folded if and only if it has a value, and to that value. -/
theorem map_foldable? (hparts : ∀ c ∈ n.children, c.folded.literal?.map Constant.toVal = c.value?) :
    ((n.mapChildren folded).kind.foldable? literal?).map Constant.toVal =
      if n.label ∈ [.binary, .unary, .paren] then n.value? else none := by
  obtain ⟨i, p, kind⟩ := n
  cases kind with
  | binary op left right =>
    have hleft := hparts left List.mem_cons_self
    have hright := hparts right mem_second
    simp only [mapChildren, Kind.map, Kind.foldable?, label, Kind.label, List.mem_cons, true_or,
      if_true, value?, ← hleft, ← hright]
    cases left.folded.literal? with
    | none => rfl
    | some a =>
      cases right.folded.literal? with
      | none => rfl
      | some b => exact Constant.map_binary? op a b
  | unary op operand =>
    have hoperand := hparts operand List.mem_cons_self
    cases op
    simp only [mapChildren, Kind.map, Kind.foldable?, label, Kind.label, List.mem_cons, true_or,
      or_true, if_true, value?, ← hoperand]
    cases operand.folded.literal? with
    | none => rfl
    | some a => cases a <;> rfl
  | paren inner => exact hparts inner List.mem_cons_self
  | _ => rfl

/-- **A node is folded to a literal if and only if it has a value, and to the literal of it.** -/
theorem map_literal?_folded (n : Node) : n.folded.literal?.map Constant.toVal = n.value? := by
  induction n using induction with
  | step n ih =>
    have hhere := map_foldable? ih
    rcases folded_cases n with ⟨hnone, h⟩ | ⟨c, hc, h⟩
    · rw [hnone] at hhere
      rw [h]
      obtain ⟨i, p, kind⟩ := n
      cases kind with
      | binary | unary | paren => exact hhere
      | _ => rfl
    · rw [hc, if_pos (label_mapChildren folded n ▸ (Kind.of_foldable? hc).1)] at hhere
      rw [h, literal?_become, ← hhere]

theorem folded_of_value? {c : Constant} (h : n.value? = some c.toVal) : n.folded = n.become c := by
  have hliteral := map_literal?_folded n
  rw [h, Option.map_eq_some_iff] at hliteral
  obtain ⟨c', hc', hval⟩ := hliteral
  obtain rfl := Constant.toVal_injective hval
  rcases folded_cases n with ⟨-, hfolded⟩ | ⟨c', -, hfolded⟩
  · -- Nothing is put for `n`, so it has been a literal before.
    rw [hfolded] at hc' ⊢
    exact Constant.HoldsAt.eq_become hc'
  · rw [hfolded, literal?_become] at hc'
    cases hc'
    exact hfolded

theorem folded_of_value?_eq_none (h : n.value? = none) : n.folded = n.mapChildren folded := by
  rcases folded_cases n with ⟨-, hfolded⟩ | ⟨c, -, hfolded⟩
  · exact hfolded
  · have hliteral := map_literal?_folded n
    rw [h, hfolded, literal?_become] at hliteral
    cases hliteral

/-- **Exactly the largest parts that have a value become literals.** -/
theorem evaluated_iff {n' : Node} : n.Evaluated n' ↔ n' = n.folded := by
  constructor
  · intro h
    induction h with
    | literal h => exact (folded_of_value? h).symm
    | @keep i p k h below ih =>
      rw [folded_of_value?_eq_none h]
      refine congrArg (Node.mk i p) ?_
      rw [Kind.map_map]
      exact Kind.map_congr ih
  · rintro rfl
    induction n using induction with
    | step n ih =>
      cases h : n.value? with
      | some v =>
        have hliteral := map_literal?_folded n
        rw [h, Option.map_eq_some_iff] at hliteral
        obtain ⟨c, -, rfl⟩ := hliteral
        rw [folded_of_value? h]
        exact .literal h
      | none =>
        rw [folded_of_value?_eq_none h]
        obtain ⟨i, p, kind⟩ := n
        have hbelow : ∀ x ∈ (kind.map fun c => (c, c.folded)).children, x.1.Evaluated x.2 := by
          rw [Kind.children_map]
          exact List.forall_mem_map.mpr ih
        have hkeep := Evaluated.keep (i := i) (p := p) (by rwa [Kind.map_fst_pairs]) hbelow
        rwa [Kind.map_fst_pairs, Kind.map_map] at hkeep

/-- A node whose parts are folded counts if it is an operation or a parenthesis that has a value. -/
theorem count_foldHere_folded (n : Node) :
    (n.mapChildren folded).foldHere.count = if n.isEvaluable then 1 else 0 := by
  have hsome : ((n.mapChildren folded).kind.foldable? literal?).isSome = n.isEvaluable := by
    rw [← Option.isSome_map (f := Constant.toVal), map_foldable? fun c _ => map_literal?_folded c,
      isEvaluable]
    split <;> simp_all
  rw [← hsome]
  unfold foldHere
  cases (n.mapChildren folded).kind.foldable? literal? <;> rfl

/-- **Every operation and every parenthesis that has a value is counted, and nothing else.** -/
theorem count_foldConstants (n : Node) :
    (foldConstants n).count = n.preorder.countP isEvaluable := by
  induction n using induction with
  | step n ih =>
    have hhere : (foldHere (n.withRewritten foldHere)).count = if n.isEvaluable then 1 else 0 :=
      count_foldHere_folded n
    unfold foldConstants at ih ⊢
    rw [count_rewrite, hhere, preorder_eq, List.countP_cons, List.countP_flatMap,
      List.map_congr_left ih]
    rfl

end Node

/-! ## Sessions -/

/-- **A pass of folding computes exactly what strict evaluation does.** Whatever has a value becomes
the literal of it and nothing else becomes a literal; of what has no value, the largest parts that
have one become literals and the rest stays; and each operation and each parenthesis that has a
value is counted. So it is in a session on a tree that has been read, after any passes. -/
theorem Session.fold_evaluates :
    (∀ n : Node, (foldConstants n).value.literal?.map Constant.toVal = n.value? ∧
      (∀ n', n.Evaluated n' ↔ n' = (foldConstants n).value) ∧
      (foldConstants n).count = n.preorder.countP Node.isEvaluable) ∧
    ∀ (raw : RawNode) (root : Node) (t : SymbolTable) (ps : List Pass),
      Node.ofRaw? raw = .ok root →
        let s := Pass.allInSession ps (.start root t)
        s.tree.Evaluated s.fold.1.tree ∧
          s.fold.1.folded = s.folded + s.tree.preorder.countP Node.isEvaluable := by
  refine ⟨fun n => ⟨n.map_literal?_folded, fun _ => Node.evaluated_iff, n.count_foldConstants⟩,
    fun raw root t ps h => ?_⟩
  obtain ⟨n, hn⟩ : ∃ n, (Pass.allInSession ps (.start root t)).graph.Shows n :=
    Pass.shows_allInSession ps (Graph.shows_ofTree h)
  intro s
  obtain ⟨hcount, hfolded⟩ := hn.foldConstants
  have htree : s.tree = n := hn.toTree
  have htree' : s.fold.1.tree = n.folded := hfolded.toTree
  have hnumber : s.fold.1.folded = s.folded + s.graph.foldConstants.count := rfl
  rw [htree, htree', hnumber, hcount, n.count_foldConstants]
  exact ⟨Node.evaluated_iff.mpr rfl, rfl⟩

/-- A quotient at the lower end of the integers, beside a division by zero that no run reaches, but
for which the whole has no value. -/
theorem Session.fold_evaluates_quotient : ∃ raw root table, Node.ofRaw? raw = .ok root ∧
    root.preorder.countP Node.isEvaluable = 7 ∧
      ∀ ps : List Pass, let s := Pass.allInSession ps (.start root table)
        s.tree.Evaluated s.fold.1.tree ∧
          s.fold.1.folded = s.folded + s.tree.preorder.countP Node.isEvaluable := by
  obtain ⟨root, table, h, hcount⟩ := Accepted.exists_of_any
    "class A{boolean f(){return false&&1/0<2||(0-2147483647-1)/(0-1)<0;}}"
    (fun root _ => root.preorder.countP Node.isEvaluable = 7)
    (by decide +kernel)
  obtain ⟨raw, -, hread⟩ := h.tree
  exact ⟨raw, root, table, hread, of_decide_eq_true hcount, fun ps =>
    Session.fold_evaluates.2 raw root table ps hread⟩

end MiniJava
