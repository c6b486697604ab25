import MiniJava.Proofs.Optimize.Alike
import MiniJava.Proofs.Tree.WellFormed

/-!
# Paraphrases

A program may be written in more than one way. Its nodes then have other numbers and stand
elsewhere, and where an expression stands there may be parentheses around it. `Node.Paraphrases`
relates a tree to one that is written so. Only the name of an import must not be put in parentheses:
in front of a dot it names a class, and in parentheses it would be a value.

Expressions that paraphrase each other have the same types and values (`Paraphrases.alike`), and on
a walk in preorder both trees show the same nodes, with parentheses in between
(`Paraphrases.retraces`).
-/

namespace MiniJava

/-! ## The relation -/

/-- The children that are no expressions: declarations and statements. -/
def Kind.parts {α : Type} : Kind α → List α
  | program items => items
  | classDecl _ _ fields methods => fields ++ methods
  | methodDecl _ params locals body => params ++ locals ++ body
  | ifElse _ thenBranch elseBranch => thenBranch :: elseBranch.toList
  | whileLoop _ body => [body]
  | block statements => statements
  | _ => []

theorem Kind.parts_map {α β : Type} (f : α → β) (k : Kind α) :
    (k.map f).parts = k.parts.map f := by
  cases k with
  | ifElse c thenBranch elseBranch => cases elseBranch <;> rfl
  | _ => simp [parts, map]

theorem Kind.parts_subset_children {α : Type} (k : Kind α) : k.parts ⊆ k.children := by
  cases k <;> simp [parts, children]

namespace Node

/-- What a place in a tree is for: an expression, or a part of the program that is none. -/
inductive Place where
  | operand
  | part

/-- The second tree has the nodes of the first, with any numbers and positions, and more parentheses
around some of its expressions, none of which is the name of an import. -/
inductive Paraphrases (t : SymbolTable) : Place → Node → Node → Prop where
  | node {place : Place} {i j : Nat} {p q : Position} {k : Kind (Node × Node)}
    (below : ∀ x ∈ k.children, Paraphrases t .operand x.1 x.2)
    (parts : ∀ x ∈ k.parts, Paraphrases t .part x.1 x.2) :
    Paraphrases t place ⟨i, p, k.map Prod.fst⟩ ⟨j, q, k.map Prod.snd⟩
  | paren {n n' : Node} {i : Nat} {p : Position} (inner : Paraphrases t .operand n n')
    (isExpr : n.IsExpr)
    (notImport : ∀ name, n.kind = .varRef name → t.isImported name = false) :
    Paraphrases t .operand n ⟨i, p, .paren n'⟩

namespace Paraphrases

variable {t : SymbolTable} {place : Place} {n n' : Node}

/-- Where a part stands the nodes correspond. -/
theorem label_eq (h : Paraphrases t .part n n') : n'.label = n.label := by
  cases h with
  | node => rw [label, Kind.label_map, label, Kind.label_map]

end Paraphrases

end Node

/-! ## Types and values -/

namespace Scope

open Node

variable {sc : Scope} {P : Vars → Prop}

/-- In a tree, the number of a node and where it stands do not matter. -/
theorem Alike.renumber (hplaced : sc.placed = none) (i j : Nat) (p q : Position) (k : Kind Node) :
    sc.Alike P ⟨i, p, k⟩ ⟨j, q, k⟩ := by
  have htype (d : Ty) : sc.typeOf? d ⟨j, q, k⟩ = sc.typeOf? d ⟨i, p, k⟩ := by
    cases k with
    | arrayLit es => cases es <;> rfl
    | call => simp only [typeOf?, hplaced]
    | _ => rfl
  refine ⟨by cases k <;> rfl, htype, fun w vars d _ => ?_⟩
  cases k with
  | unary op => cases op; rfl
  | arrayLit => simp only [eval, htype]
  | _ => rfl

/-- Parentheses do not change the type or the value. -/
theorem Alike.paren (n : Node) (i : Nat) (p : Position) : sc.Alike P n ⟨i, p, .paren n⟩ :=
  ⟨rfl, fun _ => rfl, fun _ _ _ _ => rfl⟩

end Scope

namespace Node.Paraphrases

variable {t : SymbolTable} {place : Place} {n n' : Node} {sc : Scope}

/-- **Expressions that paraphrase each other have the same types and values.** -/
theorem alike {P : Vars → Prop} (h : Paraphrases sc.table place n n') (hplaced : sc.placed = none) :
    sc.Alike P n n' := by
  induction h with
  | node _ _ ih _ => exact (Scope.Alike.of_pairs ih).trans (.renumber hplaced _ _ _ _ _)
  | paren _ _ _ ih => exact ih.trans (.paren _ _ _)

end Node.Paraphrases

/-! ## Walks -/

namespace Node

/-- The second walk passes the same nodes as the first, and parentheses in between. -/
inductive Retraces (t : SymbolTable) : List Node → List Node → Prop where
  | nil : Retraces t [] []
  | node {n n' : Node} {ns ns' : List Node} (here : Paraphrases t .part n n')
    (rest : Retraces t ns ns') : Retraces t (n :: ns) (n' :: ns')
  | paren {i : Nat} {p : Position} {inner : Node} {ns ns' : List Node}
    (rest : Retraces t ns ns') : Retraces t ns (⟨i, p, .paren inner⟩ :: ns')

variable {t : SymbolTable}

theorem Retraces.append {ns ns' ms ms' : List Node} (h : Retraces t ns ns')
    (h' : Retraces t ms ms') : Retraces t (ns ++ ms) (ns' ++ ms') := by
  induction h with
  | nil => exact h'
  | node here _ ih => exact .node here ih
  | paren _ ih => exact .paren ih

theorem Retraces.flatMap {f : Node → List Node} {ns : List (Node × Node)}
    (h : ∀ x ∈ ns, Retraces t (f x.1) (f x.2)) :
    Retraces t ((ns.map Prod.fst).flatMap f) ((ns.map Prod.snd).flatMap f) := by
  induction ns with
  | nil => exact .nil
  | cons x xs ih =>
    obtain ⟨hx, hxs⟩ := List.forall_mem_cons.mp h
    exact hx.append (ih hxs)

/-- **A walk through a paraphrase passes the same nodes.** -/
theorem Paraphrases.retraces {place : Place} {n n' : Node} (h : Paraphrases t place n n') :
    Retraces t n.preorder n'.preorder := by
  induction h with
  | node below parts ih _ =>
    rw [preorder_eq, preorder_eq, children, children, Kind.children_map, Kind.children_map]
    exact .node (.node below parts) (.flatMap ih)
  | paren _ _ _ ih =>
    rw [preorder_eq ⟨_, _, .paren _⟩]
    exact .paren (by simpa [children, Kind.children] using ih)

end Node

end MiniJava
