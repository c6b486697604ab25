import Mathlib.Data.List.Forall2
import MiniJava.Proofs.Grammar.Phrases
import MiniJava.Proofs.Tree.Numbering
import MiniJava.Proofs.Tree.WellFormed
import MiniJava.SymbolTable

/-!
# More parentheses

`RawNode.Wraps` relates a raw tree to one with more parentheses around its expressions. Parentheses
hang together most tightly of all, so what they are put around may stand wherever it stood before:
the wrapped tree is in grammar shape again (`Wraps.isProgram`).
-/

namespace MiniJava

namespace RawNode

open Grammar (typeNode flagText)

variable {t : SymbolTable} {a b : RawNode}

/-- The second tree is the first with any number of parentheses around any of its expressions, but
for names of imports. -/
inductive Wraps (t : SymbolTable) : RawNode → RawNode → Prop where
  | node {kind : String} {attributes : Attributes} {cs : List (RawNode × RawNode)}
    (below : ∀ x ∈ cs, Wraps t x.1 x.2) :
    Wraps t ⟨kind, attributes, cs.map Prod.fst⟩ ⟨kind, attributes, cs.map Prod.snd⟩
  | paren {a b : RawNode} (inner : Wraps t a b) (isExpr : a.IsExpr)
    (notImport : ∀ name, a = plain .varRef [("value", name)] [] → t.isImported name = false) :
    Wraps t a (plain .paren [] [b])

theorem Wraps.row {kind : String} {attributes : Attributes} {ns ms : List RawNode}
    (h : List.Forall₂ (Wraps t) ns ms) : Wraps t ⟨kind, attributes, ns⟩ ⟨kind, attributes, ms⟩ := by
  obtain ⟨cs, rfl, rfl, hcs⟩ := exists_pairs h
  exact .node hcs

/-- No parentheses at all may be added. -/
protected theorem Wraps.refl (n : RawNode) : Wraps t n n := by
  induction n using induction with
  | step n ih =>
    obtain ⟨kind, attributes, children⟩ := n
    exact .row (List.forall₂_same.mpr ih)

/-! ## Expressions -/

theorem strength_le (n : RawNode) : n.strength ≤ 9 := by
  unfold strength
  split
  · cases BinaryOp.ofSymbol? (n.word "op") with
    | none => exact Nat.zero_le 9
    | some op => exact Nat.le_trans op.strength_le (by decide)
  all_goals decide

/-- The word for the kind of an expression is that of a sort of expressions. -/
theorem IsExpr.exists_label (h : a.IsExpr) :
    ∃ l, Label.ofName? a.kind = some l ∧ l.isExpression = true := by
  cases h <;> exact ⟨_, rfl, rfl⟩

/-- Where each of a row of nodes is good, so is each of a row that corresponds to it. -/
theorem forall_mem_of_forall₂ {P : RawNode → Prop} {ns ms : List RawNode}
    (h : List.Forall₂ (fun n m => P n → P m) ns ms) (hP : ∀ n ∈ ns, P n) : ∀ m ∈ ms, P m := by
  induction h with
  | nil => exact List.forall_mem_nil _
  | cons hn _ ih =>
    obtain ⟨hP, hPs⟩ := List.forall_mem_cons.mp hP
    exact List.forall_mem_cons.mpr ⟨hn hP, ih hPs⟩

/-- **What is wrapped hangs together at least as tightly.** -/
theorem Wraps.isOperand (h : Wraps t a b) (ha : a.IsExpr) : b.IsOperand a.strength := by
  induction h with
  | paren _ _ _ ih => exact ⟨.paren (ih ha).1, strength_le _⟩
  | @node kind attributes cs below ih =>
    have hcs : List.Forall₂ (fun a b : RawNode => a.IsExpr → b.IsOperand a.strength)
        (cs.map Prod.fst) (cs.map Prod.snd) := by
      rw [List.forall₂_map_left_iff, List.forall₂_map_right_iff, List.forall₂_same]
      exact ih
    generalize cs.map Prod.fst = as at ha hcs ⊢
    generalize cs.map Prod.snd = bs at hcs ⊢
    cases ha with
    | intLit digits => cases hcs; exact ⟨.intLit digits, Nat.le_refl _⟩
    | boolLit v => cases hcs; exact ⟨.boolLit v, Nat.le_refl _⟩
    | this => cases hcs; exact ⟨.this, Nat.le_refl _⟩
    | varRef name => cases hcs; exact ⟨.varRef name, Nat.le_refl _⟩
    | newObject name => cases hcs; exact ⟨.newObject name, Nat.le_refl _⟩
    | newArray helement hsize =>
      obtain _ | ⟨hx, ⟨⟩⟩ := hcs
      exact ⟨.newArray helement (hx hsize).1, Nat.le_refl _⟩
    | arrayLit h =>
      have hrow := hcs.imp fun a b hab (ha : a.IsExpr) => (hab ha).1
      exact ⟨.arrayLit (forall_mem_of_forall₂ hrow h), Nat.le_refl _⟩
    | paren h =>
      obtain _ | ⟨hx, ⟨⟩⟩ := hcs
      exact ⟨.paren (hx h).1, Nat.le_refl _⟩
    | arrayAccess harray hstrong hindex =>
      obtain _ | ⟨hx, _ | ⟨hy, ⟨⟩⟩⟩ := hcs
      exact ⟨.arrayAccess (hx harray).1 (Nat.le_trans hstrong (hx harray).2) (hy hindex).1,
        Nat.le_refl _⟩
    | arrayLength harray hstrong =>
      obtain _ | ⟨hx, ⟨⟩⟩ := hcs
      exact ⟨.arrayLength (hx harray).1 (Nat.le_trans hstrong (hx harray).2), Nat.le_refl _⟩
    | call method hreceiver hstrong harguments =>
      obtain _ | ⟨hx, hcs⟩ := hcs
      have hrow := hcs.imp fun a b hab (ha : a.IsExpr) => (hab ha).1
      exact ⟨.call method (hx hreceiver).1 (Nat.le_trans hstrong (hx hreceiver).2)
        (forall_mem_of_forall₂ hrow harguments), Nat.le_refl _⟩
    | unary h hstrong =>
      obtain _ | ⟨hx, ⟨⟩⟩ := hcs
      exact ⟨.unary (hx h).1 (Nat.le_trans hstrong (hx h).2), Nat.le_refl _⟩
    | binary op hleft hright hstrong hstronger =>
      obtain _ | ⟨hx, _ | ⟨hy, ⟨⟩⟩⟩ := hcs
      exact ⟨.binary op (hx hleft).1 (hy hright).1 (Nat.le_trans hstrong (hx hleft).2)
        (Nat.lt_of_lt_of_le hstronger (hy hright).2),
        Nat.le_of_eq ((strength_binary op _).trans (strength_binary op _).symm)⟩

/-! ## Statements -/

theorem not_isExpr {l : Label} (h : Label.ofName? a.kind = some l) (hl : l.isExpression = false) :
    ¬ a.IsExpr := by
  intro ha
  obtain ⟨l', hl', hexpr⟩ := ha.exists_label
  cases h.symm.trans hl'
  rw [hl] at hexpr
  cases hexpr

/-- What is no expression keeps its kind and its attributes. -/
theorem Wraps.exists_children (h : Wraps t a b) (ha : ¬ a.IsExpr) :
    ∃ cs : List (RawNode × RawNode), a.children = cs.map Prod.fst ∧
      b = ⟨a.kind, a.attributes, cs.map Prod.snd⟩ ∧ ∀ x ∈ cs, Wraps t x.1 x.2 := by
  cases h with
  | node below => exact ⟨_, rfl, rfl, below⟩
  | paren _ isExpr => exact absurd isExpr ha

theorem IsStmt.not_isExpr (h : a.IsStmt) : ¬ a.IsExpr := by
  cases h <;> exact RawNode.not_isExpr rfl rfl

/-- **A wrapped statement is a statement**, which an `else` behind it becomes part of no sooner. -/
theorem Wraps.isStmt (h : Wraps t a b) (ha : a.IsStmt) :
    b.IsStmt ∧ b.endsOpen = a.endsOpen := by
  induction h with
  | paren _ isExpr => exact absurd isExpr ha.not_isExpr
  | @node kind attributes cs below ih =>
    have hcs : List.Forall₂ (fun a b : RawNode => (a.IsExpr → b.IsExpr) ∧
        (a.IsStmt → b.IsStmt ∧ b.endsOpen = a.endsOpen)) (cs.map Prod.fst) (cs.map Prod.snd) := by
      rw [List.forall₂_map_left_iff, List.forall₂_map_right_iff, List.forall₂_same]
      exact fun x hx => ⟨fun hexpr => ((below x hx).isOperand hexpr).1, ih x hx⟩
    generalize cs.map Prod.fst = as at ha hcs ⊢
    generalize cs.map Prod.snd = bs at hcs ⊢
    cases ha with
    | block h =>
      have hrow := hcs.imp fun a b hab (ha : a.IsStmt) => (hab.2 ha).1
      exact ⟨.block (forall_mem_of_forall₂ hrow h), rfl⟩
    | ifThen hcondition hthen =>
      obtain _ | ⟨hx, _ | ⟨hy, ⟨⟩⟩⟩ := hcs
      exact ⟨.ifThen (hx.1 hcondition) (hy.2 hthen).1, rfl⟩
    | ifElse hcondition hthen hclosed helse =>
      obtain _ | ⟨hx, _ | ⟨hy, _ | ⟨hz, ⟨⟩⟩⟩⟩ := hcs
      obtain ⟨hthen', hopen⟩ := hy.2 hthen
      obtain ⟨helse', hopen'⟩ := hz.2 helse
      exact ⟨.ifElse (hx.1 hcondition) hthen' (hopen.trans hclosed) helse', hopen'⟩
    | whileLoop hcondition hbody =>
      obtain _ | ⟨hx, _ | ⟨hy, ⟨⟩⟩⟩ := hcs
      obtain ⟨hbody', hopen⟩ := hy.2 hbody
      exact ⟨.whileLoop (hx.1 hcondition) hbody', hopen⟩
    | returning value h =>
      cases value with
      | none => cases hcs; exact ⟨.returning none h, rfl⟩
      | some e =>
        obtain _ | ⟨hx, ⟨⟩⟩ := hcs
        refine ⟨.returning (some _) ?_, rfl⟩
        rintro _ ⟨⟩
        exact hx.1 (h e rfl)
    | assign target h =>
      obtain _ | ⟨hx, ⟨⟩⟩ := hcs
      exact ⟨.assign target (hx.1 h), rfl⟩
    | arrayAssign target hindex hvalue =>
      obtain _ | ⟨hx, _ | ⟨hy, ⟨⟩⟩⟩ := hcs
      exact ⟨.arrayAssign target (hx.1 hindex) (hy.1 hvalue), rfl⟩
    | exprStmt h =>
      obtain _ | ⟨hx, ⟨⟩⟩ := hcs
      exact ⟨.exprStmt (hx.1 h), rfl⟩

/-! ## Declarations -/

theorem not_isExpr_of_none (h : Label.ofName? a.kind = none) : ¬ a.IsExpr := by
  intro ha
  obtain ⟨l, hl, -⟩ := ha.exists_label
  rw [h] at hl
  cases hl

theorem Wraps.eq_of_isFlatType (h : Wraps t a b) (ha : a.IsFlatType) : b = a := by
  obtain ⟨cs, hcs, rfl, -⟩ := h.exists_children (by cases ha <;> exact not_isExpr_of_none rfl)
  cases ha
  all_goals
    rw [List.map_eq_nil_iff.mp hcs.symm]
    rfl

/-- Written types have no expressions. -/
theorem Wraps.eq_of_isType (h : Wraps t a b) (ha : a.IsType) : b = a := by
  cases ha with
  | flat ha => exact h.eq_of_isFlatType ha
  | array ha | varargs ha =>
    obtain ⟨cs, hcs, rfl, hbelow⟩ := h.exists_children (not_isExpr_of_none rfl)
    obtain ⟨x, rfl, rfl⟩ := List.map_eq_singleton_iff.mp hcs.symm
    rw [List.map_singleton, (hbelow x List.mem_cons_self).eq_of_isFlatType ha]
    rfl

theorem Wraps.eq_of_isVarDecl (h : Wraps t a b) (ha : a.IsVarDecl) : b = a := by
  obtain ⟨name, htype⟩ := ha
  obtain ⟨cs, hcs, rfl, hbelow⟩ := h.exists_children (not_isExpr rfl rfl)
  obtain ⟨x, rfl, rfl⟩ := List.map_eq_singleton_iff.mp hcs.symm
  rw [List.map_singleton, (hbelow x List.mem_cons_self).eq_of_isType htype]
  rfl

theorem Wraps.eq_of_isParam (h : Wraps t a b) (ha : a.IsParam) : b = a := by
  obtain ⟨name, htype⟩ := ha
  obtain ⟨cs, hcs, rfl, hbelow⟩ := h.exists_children (not_isExpr rfl rfl)
  obtain ⟨x, rfl, rfl⟩ := List.map_eq_singleton_iff.mp hcs.symm
  rw [List.map_singleton, (hbelow x List.mem_cons_self).eq_of_isType htype]
  rfl

theorem Wraps.isMethod (h : Wraps t a b) (ha : a.IsMethod) : b.IsMethod := by
  obtain ⟨isPublic, isStatic, name, htype, hparams, hbody⟩ := ha
  obtain ⟨cs, hcs, rfl, hbelow⟩ := h.exists_children (not_isExpr rfl rfl)
  obtain ⟨x, xs, rfl, rfl, hxs⟩ := List.map_eq_cons_iff.mp hcs.symm
  obtain ⟨ps, bs, rfl, rfl, rfl⟩ := List.map_eq_append_iff.mp hxs
  rw [List.forall_mem_map] at hparams hbody
  have htype' : x.2 = x.1 := (hbelow x List.mem_cons_self).eq_of_isType htype
  rw [List.map_cons, List.map_append, htype']
  refine .mk isPublic isStatic name htype (List.forall_mem_map.mpr fun p hp => ?_)
    (List.forall_mem_map.mpr fun n hn => ?_)
  · have hwraps := hbelow p (List.mem_cons_of_mem x (List.mem_append_left _ hp))
    rw [hwraps.eq_of_isParam (hparams p hp)]
    exact hparams p hp
  · have hwraps := hbelow n (List.mem_cons_of_mem x (List.mem_append_right _ hn))
    rcases hbody n hn with h | h
    · exact .inl (hwraps.eq_of_isVarDecl h ▸ h)
    · exact .inr (hwraps.isStmt h).1

theorem Wraps.isClass (h : Wraps t a b) (ha : a.IsClass) : b.IsClass := by
  obtain ⟨name, superclass, hmembers⟩ := ha
  obtain ⟨cs, rfl, rfl, hbelow⟩ := h.exists_children (not_isExpr rfl rfl)
  rw [List.forall_mem_map] at hmembers
  refine .mk name superclass (List.forall_mem_map.mpr fun n hn => ?_)
  rcases hmembers n hn with h | h
  · exact .inl ((hbelow n hn).eq_of_isVarDecl h ▸ h)
  · exact .inr ((hbelow n hn).isMethod h)

theorem Wraps.isImport (h : Wraps t a b) (ha : a.IsImport) : b.IsImport := by
  obtain ⟨path⟩ := ha
  obtain ⟨cs, hcs, rfl, -⟩ := h.exists_children (not_isExpr rfl rfl)
  rw [List.map_eq_nil_iff.mp hcs.symm]
  exact .mk path

/-- **A wrapped program is a program.** -/
theorem Wraps.isProgram (h : Wraps t a b) (ha : a.IsProgram) : b.IsProgram := by
  obtain ⟨hitems⟩ := ha
  obtain ⟨cs, rfl, rfl, hbelow⟩ := h.exists_children (not_isExpr rfl rfl)
  rw [List.forall_mem_map] at hitems
  exact .mk (List.forall_mem_map.mpr fun n hn =>
    (hitems n hn).imp (hbelow n hn).isImport (hbelow n hn).isClass)

end RawNode

end MiniJava
