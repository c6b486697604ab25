import Mathlib.Data.List.Forall2
import MiniJava.Proofs.Grammar.Ensures
import MiniJava.Tree

/-!
# Well-formed trees

A node has places for children of certain sorts: operands are expressions, a class has fields and
methods, and so on. `Kind.Fits` says this of one node, and that its names are identifiers where they
stand for classes or variables. In a well-formed tree it holds of every node.

What stands below a method of such a tree is no method (`WellFormed.no_method_below`), so a walk in
preorder does not leave the scope of a method before all of its nodes have been passed.
-/

namespace MiniJava

/-! ## Sorts of nodes -/

/-- Nodes that stand for a value. -/
def Label.isExpression : Label → Bool
  | binary | unary | varRef | intLit | boolLit | this | newObject | newArray | arrayLit
  | arrayAccess | arrayLength | call | paren => true
  | _ => false

namespace Node

/-- The sort of a node. -/
abbrev label (n : Node) : Label := n.kind.label

/-- An expression. -/
def IsExpr (n : Node) : Prop := n.label.isExpression = true

/-- A statement. -/
def IsStmt (n : Node) : Prop := n.label.isStatement = true

theorem IsStmt.not_isExpr {n : Node} (hn : n.IsStmt) : ¬ n.IsExpr := by
  cases hl : n.label <;> rw [IsStmt, hl] at hn <;>
    first | (rw [IsExpr, hl]; exact Bool.false_ne_true) | cases hn

theorem IsExpr.not_method {n : Node} (hn : n.IsExpr) : n.label ≠ .methodDecl := by
  intro hlabel
  rw [IsExpr, hlabel] at hn
  cases hn

theorem IsStmt.not_method {n : Node} (hn : n.IsStmt) : n.label ≠ .methodDecl := by
  intro hlabel
  rw [IsStmt, hlabel] at hn
  cases hn

end Node

/-- Rows whose elements are related one by one, as a row of pairs. So a kind with pairs for children
stands for two kinds whose children are related. -/
theorem exists_pairs {α β : Type} {R : α → β → Prop} {as : List α} {bs : List β}
    (h : List.Forall₂ R as bs) :
    ∃ cs : List (α × β), cs.map Prod.fst = as ∧ cs.map Prod.snd = bs ∧ ∀ x ∈ cs, R x.1 x.2 := by
  obtain ⟨hlength, hall⟩ := List.forall₂_iff_zip.mp h
  exact ⟨as.zip bs, List.map_fst_zip (Nat.le_of_eq hlength),
    List.map_snd_zip (Nat.le_of_eq hlength.symm), fun _ hx => hall hx⟩

/-! ## Fitting children -/

/-- The children are of the sorts for which the kind has places, and its names are identifiers. -/
def Kind.Fits : Kind Node → Prop
  | program items => ∀ c ∈ items, c.label = .importDecl ∨ c.label = .classDecl
  | classDecl name _ fields methods =>
    IsIdentifier name ∧ (∀ c ∈ fields, c.label = .varDecl) ∧ ∀ c ∈ methods, c.label = .methodDecl
  | methodDecl _ params locals body =>
    (∀ c ∈ params, c.label = .param) ∧ (∀ c ∈ locals, c.label = .varDecl) ∧ ∀ c ∈ body, c.IsStmt
  | ifElse condition thenBranch elseBranch =>
    condition.IsExpr ∧ thenBranch.IsStmt ∧ ∀ c ∈ elseBranch, c.IsStmt
  | whileLoop condition body => condition.IsExpr ∧ body.IsStmt
  | block statements => ∀ c ∈ statements, c.IsStmt
  | varRef name | newObject name => IsIdentifier name
  | k => ∀ c ∈ k.children, c.IsExpr

/-- In the whole tree the children fit. -/
inductive Node.WellFormed : Node → Prop where
  | intro {n : Node} (fits : n.kind.Fits) (below : ∀ c ∈ n.children, WellFormed c) : WellFormed n

namespace Node

/-! ## Nodes in preorder -/

/-- The nodes below a child stand in a row. -/
theorem preorder_infix_of_mem_children {n c : Node} (h : c ∈ n.children) :
    c.preorder <:+: n.preorder := by
  obtain ⟨as, bs, hcs⟩ := List.append_of_mem h
  rw [preorder_eq n, hcs, List.flatMap_append, List.flatMap_cons]
  exact ⟨n :: as.flatMap preorder, bs.flatMap preorder, by simp⟩

theorem mem_preorder_self (n : Node) : n ∈ n.preorder := by
  rw [preorder_eq]
  exact List.mem_cons_self

theorem mem_preorder_of_mem_children {n c m : Node} (h : c ∈ n.children) (hm : m ∈ c.preorder) :
    m ∈ n.preorder :=
  (preorder_infix_of_mem_children h).subset hm

/-- A node in preorder is the root or stands below a child. -/
theorem mem_preorder {n m : Node} :
    m ∈ n.preorder ↔ m = n ∨ ∃ c ∈ n.children, m ∈ c.preorder := by
  rw [preorder_eq, List.mem_cons, List.mem_flatMap]

/-- A node in preorder is the root or a child of a node in preorder. -/
theorem eq_or_exists_parent {n m : Node} (h : m ∈ n.preorder) :
    m = n ∨ ∃ q ∈ n.preorder, m ∈ q.children := by
  induction n using Node.induction with
  | step n ih =>
    rcases mem_preorder.mp h with rfl | ⟨c, hc, hm⟩
    · exact .inl rfl
    · right
      rcases ih c hc hm with rfl | ⟨q, hq, hm⟩
      · exact ⟨n, n.mem_preorder_self, hc⟩
      · exact ⟨q, mem_preorder_of_mem_children hc hq, hm⟩

namespace WellFormed

variable {n m c : Node}

theorem fits (h : n.WellFormed) : n.kind.Fits := by
  cases h
  assumption

theorem of_mem_children (h : n.WellFormed) (hc : c ∈ n.children) : c.WellFormed := by
  cases h with
  | intro _ below => exact below c hc

theorem of_mem_preorder (h : n.WellFormed) (hm : m ∈ n.preorder) : m.WellFormed := by
  induction h with
  | @intro n fits below ih =>
    rcases mem_preorder.mp hm with rfl | ⟨c, hc, hm⟩
    · exact .intro fits below
    · exact ih c hc hm

/-! ## What stands below what -/

/-- The children of an expression are expressions. -/
theorem isExpr_of_mem_children (h : n.WellFormed) (hn : n.IsExpr) (hc : c ∈ n.children) :
    c.IsExpr := by
  obtain ⟨i, p, k⟩ := n
  have hfits := h.fits
  cases k with
  | varRef | newObject => cases hc
  | program | classDecl | methodDecl | importDecl | varDecl | param | assign | arrayAssign
  | returning | ifElse | whileLoop | block | exprStmt => cases hn
  | _ => exact hfits c hc

/-- The children of a statement are statements and expressions. -/
theorem isStmt_or_isExpr_of_mem_children (h : n.WellFormed) (hn : n.IsStmt) (hc : c ∈ n.children) :
    c.IsStmt ∨ c.IsExpr := by
  obtain ⟨i, p, k⟩ := n
  have hfits := h.fits
  cases k with
  | ifElse condition thenBranch elseBranch =>
    obtain ⟨hcond, hthen, helse⟩ := hfits
    simp only [children, Kind.children, List.mem_cons, Option.mem_toList] at hc
    rcases hc with rfl | rfl | hc
    · exact .inr hcond
    · exact .inl hthen
    · exact .inl (helse c hc)
  | whileLoop condition body =>
    simp only [children, Kind.children, List.mem_cons, List.not_mem_nil, or_false] at hc
    rcases hc with rfl | rfl
    · exact .inr hfits.1
    · exact .inl hfits.2
  | block statements => exact .inl (hfits c hc)
  | assign | arrayAssign | returning | exprStmt => exact .inr (hfits c hc)
  | _ => cases hn

/-- Below a statement there are only statements and expressions. -/
theorem isStmt_or_isExpr_of_mem_preorder (h : n.WellFormed) (hn : n.IsStmt ∨ n.IsExpr)
    (hm : m ∈ n.preorder) : m.IsStmt ∨ m.IsExpr := by
  induction h with
  | @intro n fits below ih =>
    have hn' : n.WellFormed := .intro fits below
    rcases mem_preorder.mp hm with rfl | ⟨c, hc, hm⟩
    · exact hn
    · refine ih c hc ?_ hm
      rcases hn with hn | hn
      · exact hn'.isStmt_or_isExpr_of_mem_children hn hc
      · exact .inr (hn'.isExpr_of_mem_children hn hc)

/-- Below an expression there are only expressions. -/
theorem isExpr_of_mem_preorder (h : n.WellFormed) (hn : n.IsExpr) (hm : m ∈ n.preorder) :
    m.IsExpr := by
  induction h with
  | @intro n fits below ih =>
    rcases mem_preorder.mp hm with rfl | ⟨c, hc, hm⟩
    · exact hn
    · exact ih c hc (isExpr_of_mem_children (.intro fits below) hn hc) hm

/-- No method stands below the children of a method. -/
theorem no_method_below (h : n.WellFormed) (hn : n.label = .methodDecl) (hc : c ∈ n.children)
    (hm : m ∈ c.preorder) : m.label ≠ .methodDecl := by
  obtain ⟨i, p, k⟩ := n
  cases k with
  | methodDecl head params locals body =>
    obtain ⟨hparams, hlocals, hbody⟩ := h.fits
    have leaf (hleaf : c.label = .param ∨ c.label = .varDecl) : m.label ≠ .methodDecl := by
      obtain ⟨i, p, k⟩ := c
      cases k with
      | param | varDecl =>
        rw [preorder_eq] at hm
        cases hm with
        | head => exact nofun
        | tail _ hm => cases hm
      | _ => rcases hleaf with hleaf | hleaf <;> cases hleaf
    simp only [children, Kind.children, List.mem_append] at hc
    rcases hc with (hc | hc) | hc
    · exact leaf (.inl (hparams c hc))
    · exact leaf (.inr (hlocals c hc))
    · have hc' : c.WellFormed := h.of_mem_children (by simp [children, Kind.children, hc])
      exact (hc'.isStmt_or_isExpr_of_mem_preorder (.inl (hbody c hc)) hm).elim
        IsStmt.not_method IsExpr.not_method
  | _ => cases hn

end WellFormed

end Node

end MiniJava
