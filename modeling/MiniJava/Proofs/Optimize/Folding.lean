import Mathlib.Algebra.Ring.Nat
import MiniJava.Constant.Folding
import MiniJava.Proofs.Optimize.Alike

/-!
# Folding is harmless

What the compiler computes with constants is what a run computes with their values
(`Constant.apply_binary?`). So a folded node is alike the node before, and a tree of folded nodes
runs the same: `Node.alike_fold` and `Node.sameRun_fold`.

The first section says what a rewriting of a tree does to one node, for any pass that counts its
replacements.
-/

namespace MiniJava

/-! ## Rewriting one node -/

namespace Node

variable {f : Node → Counted Node}

theorem value_rewriteAll (ns : List Node) :
    (rewriteAll f ns).value = ns.map fun n => (rewrite f n).value := by
  induction ns with
  | nil => rfl
  | cons n ns ih =>
    rw [List.map_cons, ← ih]
    rfl

theorem count_rewriteAll (ns : List Node) :
    (rewriteAll f ns).count = (ns.map fun n => (rewrite f n).count).sum := by
  induction ns with
  | nil => rfl
  | cons n ns ih =>
    rw [List.map_cons, List.sum_cons, ← ih]
    rfl

/-- A node with its children rewritten. -/
def withRewritten (f : Node → Counted Node) (n : Node) : Node :=
  n.mapChildren fun c => (rewrite f c).value

/-- A tree is rewritten below its root, and then the root is. -/
theorem value_rewrite (n : Node) : (rewrite f n).value = (f (n.withRewritten f)).value := by
  obtain ⟨i, p, k⟩ := n
  cases k with
  | returning v => cases v <;> rfl
  | ifElse c t e => cases e <;> rfl
  | program | classDecl | methodDecl | block | arrayLit | call =>
    simp only [rewrite, withRewritten, mapChildren, Kind.map, Counted.value_bind, value_rewriteAll]
  | _ => rfl

/-- The replacements in a tree are those below its root and that of the root. -/
theorem count_rewrite (n : Node) :
    (rewrite f n).count =
      (n.children.map fun c => (rewrite f c).count).sum + (f (n.withRewritten f)).count := by
  obtain ⟨i, p, k⟩ := n
  cases k with
  | returning v =>
    cases v <;> simp [rewrite, rewrite?, withRewritten, mapChildren, children, Kind.children, Kind.map]
  | ifElse c t e =>
    cases e <;>
      simp [rewrite, rewrite?, withRewritten, mapChildren, children, Kind.children, Kind.map, ← Nat.add_assoc]
  | _ =>
    simp [rewrite, withRewritten, mapChildren, children, Kind.children, Kind.map, count_rewriteAll,
      value_rewriteAll, ← Nat.add_assoc]

end Node

/-! ## Constants -/

namespace Constant

/-- The value that a run has for a constant. -/
def toVal : Constant → Val
  | int value => .int value
  | bool value => .bool value

/-- The type of a constant. -/
def type : Constant → Ty
  | int _ => .int
  | bool _ => .boolean

theorem onInts_binaryInt? {op : BinaryOp} {a b : Int32} {c : Constant}
    (h : binaryInt? op a b = some c) : op.onInts a.toInt b.toInt = .ok c.toVal := by
  have zero : b.toInt = 0 ↔ b = 0 := Int32.toInt_inj (y := 0)
  have div (hb : b ≠ 0) : Int32.ofInt (a.toInt.tdiv b.toInt) = a / b := by
    rw [← Int32.toInt_inj, Int32.toInt_div, Int32.toInt_ofInt]
  cases op with
  | and | or => cases h
  | div =>
    unfold binaryInt? at h
    by_cases hb : b = 0
    · rw [if_pos hb] at h
      cases h
    · rw [if_neg hb] at h
      cases h
      unfold BinaryOp.onInts
      rw [if_neg (zero.not.mpr hb), div hb]
      rfl
  | _ =>
    cases h
    simp [BinaryOp.onInts, toVal, Int32.lt_iff_toInt_lt, Int32.le_iff_toInt_le,
      ← Int32.toInt_inj]

/-- The operator computes in a run what the compiler computes. -/
theorem apply_binary? {ε : Type} {op : BinaryOp} {a b c : Constant}
    (h : binary? op a b = some c) :
    op.apply (pure a.toVal) (pure b.toVal) = (pure c.toVal : Act ε Val Val) := by
  cases a with
  | int a =>
    cases b with
    | bool b => cases h
    | int b =>
      have hvalue := onInts_binaryInt? h
      cases op with
      | and | or => cases h
      | _ => exact congrArg Act.ofExcept hvalue
  | bool a =>
    cases b with
    | int b => cases h
    | bool b => cases op <;> cases h <;> cases a <;> cases b <;> rfl

theorem type_binary? {op : BinaryOp} {a b c : Constant} (h : binary? op a b = some c) :
    c.type = if op.isArithmetic then .int else .boolean := by
  cases a with
  | int a =>
    cases b with
    | bool b => cases h
    | int b =>
      cases op with
      | div =>
        simp only [binary?, binaryInt?] at h
        split at h <;> cases h
        rfl
      | _ => cases h <;> rfl
  | bool a =>
    cases b with
    | int b => cases h
    | bool b => cases op <;> cases h <;> rfl

/-- A node with the literal of a constant. -/
def HoldsAt (c : Constant) (n : Node) : Prop := n.literal? = some c

namespace HoldsAt

variable {c : Constant} {n : Node} (sc : Scope)

theorem become (n : Node) (c : Constant) : c.HoldsAt (n.become c) := by
  cases c <;> rfl

theorem eq_become (h : c.HoldsAt n) : n = n.become c := by
  obtain ⟨i, p, k⟩ := n
  cases k with
  | intLit | boolLit =>
    cases h
    rfl
  | _ => cases h

theorem isCall (h : c.HoldsAt n) : n.isCall = false := by
  rw [h.eq_become]
  cases c <;> rfl

theorem typeOf? (h : c.HoldsAt n) (d : Ty) : sc.typeOf? d n = some c.type := by
  rw [h.eq_become]
  cases c <;> rfl

theorem eval (h : c.HoldsAt n) (w : World Effect Val) (vars : Vars) (d : Ty) :
    sc.eval w vars d n = pure (some c.toVal) := by
  rw [h.eq_become]
  cases c <;> rfl

/-- A literal may be put for an expression of its type and value that is no call. -/
theorem alike {n' : Node} {P : Vars → Prop} (h : c.HoldsAt n') (hcall : n.isCall = false)
    (htype : ∀ d, sc.typeOf? d n = some c.type)
    (hvalue : ∀ w vars d, P vars → sc.eval w vars d n = pure (some c.toVal)) :
    sc.Alike P n n' :=
  ⟨h.isCall.trans hcall.symm, fun d => (h.typeOf? sc d).trans (htype d).symm,
    fun w vars d hP => (h.eval sc w vars d).trans (hvalue w vars d hP).symm⟩

end HoldsAt

end Constant

/-! ## Folding -/

namespace Kind

variable {α β : Type}

theorem foldable?_map (literal? : β → Option Constant) (f : α → β) (k : Kind α) :
    (k.map f).foldable? literal? = k.foldable? fun a => literal? (f a) := by
  cases k <;> rfl

theorem foldable?_congr {literal? literal?' : α → Option Constant} {k : Kind α}
    (h : ∀ a ∈ k.children, literal? a = literal?' a) :
    k.foldable? literal? = k.foldable? literal?' := by
  cases k with
  | binary | unary | paren => simp_all [foldable?, children]
  | _ => rfl

/-- What is folded is an operation or a parenthesis, and its parts are literals. -/
theorem of_foldable? {literal? : α → Option Constant} {k : Kind α} {c : Constant}
    (h : k.foldable? literal? = some c) :
    k.label ∈ [.binary, .unary, .paren] ∧ ∀ a ∈ k.children, ∃ c', literal? a = some c' := by
  cases k with
  | binary op left right =>
    simp only [foldable?, Option.bind_eq_bind, Option.bind_eq_some_iff] at h
    obtain ⟨a, ha, b, hb, -⟩ := h
    simp [label, children, ha, hb]
  | unary op operand =>
    simp only [foldable?, Option.bind_eq_bind, Option.bind_eq_some_iff] at h
    obtain ⟨a, ha, -⟩ := h
    simp [label, children, ha]
  | paren inner => simp [label, children, show literal? inner = some c from h]
  | _ => cases h

end Kind

namespace Node

variable (sc : Scope) (n : Node)

theorem alike_foldHere : sc.Alike (fun _ => True) n n.foldHere.value := by
  unfold foldHere
  cases hc : n.kind.foldable? literal? with
  | none => exact .refl sc _ n
  | some c =>
    obtain ⟨i, p, k⟩ := n
    cases k with
    | binary op left right =>
      simp only [Kind.foldable?, Option.bind_eq_bind, Option.bind_eq_some_iff] at hc
      obtain ⟨a, ha, b, hb, hc⟩ := hc
      have ha : a.HoldsAt left := ha
      have hb : b.HoldsAt right := hb
      refine (Constant.HoldsAt.become _ c).alike sc rfl (fun d => ?_) fun w vars d _ => ?_
      · rw [Constant.type_binary? hc]
        rfl
      · have happly := Constant.apply_binary? (ε := Effect) hc
        simp only [Scope.eval]
        rw [ha.eval, hb.eval]
        exact congrArg (fun x => do return some (← x)) happly
    | unary op operand =>
      simp only [Kind.foldable?, Option.bind_eq_bind, Option.bind_eq_some_iff] at hc
      obtain ⟨a, ha, hc⟩ := hc
      have ha : a.HoldsAt operand := ha
      cases op
      cases a with
      | int a => cases hc
      | bool a =>
        cases hc
        refine (Constant.HoldsAt.become _ _).alike sc rfl (fun d => ha.typeOf? sc _)
          fun w vars d _ => ?_
        simp only [Scope.eval]
        rw [ha.eval]
        rfl
    | paren inner =>
      have hc : c.HoldsAt inner := hc
      exact (Constant.HoldsAt.become _ c).alike sc hc.isCall (fun d => hc.typeOf? sc d)
        fun w vars d _ => hc.eval sc w vars d
    | _ => cases hc

theorem sameRun_foldHere : sc.SameRun n n.foldHere.value := by
  unfold foldHere
  cases hc : n.kind.foldable? literal? with
  | none => exact fun _ _ _ _ => rfl
  | some c =>
    intro w fuel vars t
    obtain ⟨i, p, k⟩ := n
    cases k with
    | binary | unary | paren => cases c <;> rfl
    | _ => cases hc

/-- **A folded tree is alike and runs the same.** -/
theorem alike_and_sameRun_fold :
    sc.Alike (fun _ => True) n (foldConstants n).value ∧ sc.SameRun n (foldConstants n).value := by
  induction n using Node.induction with
  | step n ih =>
    unfold foldConstants at ih ⊢
    rw [value_rewrite]
    refine ⟨(Scope.Alike.map fun c hc => (ih c hc).1).trans (alike_foldHere sc _), ?_⟩
    intro w fuel vars t
    rw [sameRun_foldHere sc _ w fuel vars t]
    exact Scope.SameRun.map ih w fuel vars t

/-- A literal is folded to itself. -/
theorem foldConstants_of_literal {n : Node} {c : Constant} (h : n.literal? = some c) :
    foldConstants n = pure n := by
  rw [Constant.HoldsAt.eq_become h]
  cases c <;> rfl

/-! ## Counting -/

/-- The number of nodes that are no literals. -/
def nonLiterals (n : Node) : Nat :=
  n.fold fun n below => below.sum + if n.kind.isLiteral then 0 else 1

theorem nonLiterals_eq (n : Node) :
    n.nonLiterals =
      (n.children.map nonLiterals).sum + if n.kind.isLiteral then 0 else 1 := by
  unfold nonLiterals
  rw [fold_eq]

theorem nonLiterals_of_literal {n : Node} {c : Constant} (h : c.HoldsAt n) :
    n.nonLiterals = 0 := by
  rw [h.eq_become]
  cases c <;> rfl

/-- Folding a node leaves one node less that is no literal. -/
theorem count_foldHere : n.foldHere.count + n.foldHere.value.nonLiterals = n.nonLiterals := by
  unfold foldHere
  cases hc : n.kind.foldable? literal? with
  | none => exact Nat.zero_add _
  | some c =>
    have hzero := nonLiterals_of_literal (Constant.HoldsAt.become n c)
    obtain ⟨i, p, k⟩ := n
    cases k with
    | binary op left right =>
      simp only [Kind.foldable?, Option.bind_eq_bind, Option.bind_eq_some_iff] at hc
      obtain ⟨a, ha, b, hb, -⟩ := hc
      rw [nonLiterals_eq ⟨i, p, .binary op left right⟩]
      simp [children, Kind.children, Kind.isLiteral, nonLiterals_of_literal (c := a) ha,
        nonLiterals_of_literal (c := b) hb, Counted.once, hzero]
    | unary op operand =>
      simp only [Kind.foldable?, Option.bind_eq_bind, Option.bind_eq_some_iff] at hc
      obtain ⟨a, ha, -⟩ := hc
      rw [nonLiterals_eq ⟨i, p, .unary op operand⟩]
      simp [children, Kind.children, Kind.isLiteral, nonLiterals_of_literal (c := a) ha,
        Counted.once, hzero]
    | paren inner =>
      rw [nonLiterals_eq ⟨i, p, .paren inner⟩]
      simp [children, Kind.children, Kind.isLiteral, nonLiterals_of_literal (c := c) hc,
        Counted.once, hzero]
    | _ => cases hc

/-- Counts of replacements and of what is left, one child after the other. -/
theorem sum_map_add {α : Type} {f g h : α → Nat} {as : List α} (hs : ∀ a ∈ as, f a + g a = h a) :
    (as.map f).sum + (as.map g).sum = (as.map h).sum := by
  induction as with
  | nil => rfl
  | cons a as ih =>
    obtain ⟨ha, has⟩ := List.forall_mem_cons.mp hs
    simp only [List.map_cons, List.sum_cons]
    have := ih has
    omega

/-- The number of nodes that are no literals, when only children are replaced. -/
theorem nonLiterals_mapChildren (n : Node) (f : Node → Node) :
    (n.mapChildren f).nonLiterals =
      (n.children.map fun c => (f c).nonLiterals).sum + if n.kind.isLiteral then 0 else 1 := by
  have hliteral : (n.kind.map f).isLiteral = n.kind.isLiteral := by cases n.kind <;> rfl
  rw [nonLiterals_eq]
  simp only [mapChildren, children, Kind.children_map, List.map_map, hliteral]
  rfl

/-- Folding leaves as many nodes less that are no literals as it makes replacements. -/
theorem count_fold :
    (foldConstants n).count + (foldConstants n).value.nonLiterals = n.nonLiterals := by
  induction n using Node.induction with
  | step n ih =>
    unfold foldConstants at ih ⊢
    have hbelow := sum_map_add ih
    have hhere := count_foldHere (n.withRewritten foldHere)
    have hmap := n.nonLiterals_mapChildren fun c => (rewrite foldHere c).value
    rw [count_rewrite, value_rewrite, nonLiterals_eq n]
    unfold withRewritten at *
    omega

end Node

end MiniJava
