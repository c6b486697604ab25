import MiniJava.Text.Position
import MiniJava.Tree.Kind

/-!
# Syntax trees

A `Node` is a kind whose children are nodes, together with the position where it starts and a number
(`NodeId`). The nodes of one tree are numbered without gaps, each after its children, so the root
has the largest number and a tree of `n` nodes uses the numbers below `n`.

Two recursions serve all simple traversals: `Node.fold` computes a value from a node and the values
of its children (`fold_eq`), and `Node.rewrite` rebuilds a tree from the leaves upwards. Proofs
about trees go by `Node.induction`.
-/

namespace MiniJava

/-- A node of a syntax tree with all that is below it. -/
structure Node where
  id : Nat
  position : Position
  kind : Kind Node

namespace Node

/-- The children of a node. -/
def children (n : Node) : List Node := n.kind.children

/-! ## Induction -/

theorem sizeOf_lt_of_mem_children {n c : Node} (h : c ∈ n.children) : sizeOf c < sizeOf n := by
  obtain ⟨i, p, k⟩ := n
  have mem_lt : ∀ ns : List Node, c ∈ ns → sizeOf c < sizeOf ns := fun _ h =>
    List.sizeOf_lt_of_mem h
  cases k with
  | returning value => cases value <;> simp_all [children, Kind.children]; omega
  | ifElse _ _ elseBranch => cases elseBranch <;> simp_all [children, Kind.children] <;> grind
  | _ => simp_all [children, Kind.children] <;> grind

/-- What holds of a node whenever it holds of its children holds of every node. -/
theorem induction {P : Node → Prop} (step : ∀ n, (∀ c ∈ n.children, P c) → P n) (n : Node) : P n :=
  step n fun c _ => induction step c
termination_by sizeOf n
decreasing_by exact sizeOf_lt_of_mem_children ‹_›

/-! ## Traversals -/

section Fold

variable {β : Type} (f : Node → List β → β)

mutual

/-- The value of a node, computed by `f` from the node and the values of its children. -/
def fold : Node → β
  | ⟨i, p, .program items⟩ => f ⟨i, p, .program items⟩ (foldAll items)
  | ⟨i, p, .classDecl c s fields methods⟩ =>
    f ⟨i, p, .classDecl c s fields methods⟩ (foldAll fields ++ foldAll methods)
  | ⟨i, p, .methodDecl h params locals body⟩ =>
    f ⟨i, p, .methodDecl h params locals body⟩ (foldAll params ++ foldAll locals ++ foldAll body)
  | ⟨i, p, .assign t v⟩ => f ⟨i, p, .assign t v⟩ [fold v]
  | ⟨i, p, .arrayAssign t e v⟩ => f ⟨i, p, .arrayAssign t e v⟩ [fold e, fold v]
  | ⟨i, p, .returning (some v)⟩ => f ⟨i, p, .returning (some v)⟩ [fold v]
  | ⟨i, p, .ifElse c t (some e)⟩ => f ⟨i, p, .ifElse c t (some e)⟩ [fold c, fold t, fold e]
  | ⟨i, p, .ifElse c t none⟩ => f ⟨i, p, .ifElse c t none⟩ [fold c, fold t]
  | ⟨i, p, .whileLoop c b⟩ => f ⟨i, p, .whileLoop c b⟩ [fold c, fold b]
  | ⟨i, p, .block ss⟩ => f ⟨i, p, .block ss⟩ (foldAll ss)
  | ⟨i, p, .exprStmt e⟩ => f ⟨i, p, .exprStmt e⟩ [fold e]
  | ⟨i, p, .binary op l r⟩ => f ⟨i, p, .binary op l r⟩ [fold l, fold r]
  | ⟨i, p, .unary op e⟩ => f ⟨i, p, .unary op e⟩ [fold e]
  | ⟨i, p, .newArray t s⟩ => f ⟨i, p, .newArray t s⟩ [fold s]
  | ⟨i, p, .arrayLit es⟩ => f ⟨i, p, .arrayLit es⟩ (foldAll es)
  | ⟨i, p, .arrayAccess a e⟩ => f ⟨i, p, .arrayAccess a e⟩ [fold a, fold e]
  | ⟨i, p, .arrayLength a⟩ => f ⟨i, p, .arrayLength a⟩ [fold a]
  | ⟨i, p, .call r m as⟩ => f ⟨i, p, .call r m as⟩ (fold r :: foldAll as)
  | ⟨i, p, .paren e⟩ => f ⟨i, p, .paren e⟩ [fold e]
  | n => f n []
termination_by structural n => n

/-- The values of several nodes. -/
def foldAll : List Node → List β
  | [] => []
  | n :: ns => fold n :: foldAll ns
termination_by structural ns => ns

end

theorem foldAll_eq_map (ns : List Node) : foldAll f ns = ns.map (fold f) := by
  induction ns with
  | nil => rfl
  | cons n ns ih => simp [foldAll, ih]

/-- A fold applies `f` to a node and the folds of its children. -/
theorem fold_eq (n : Node) : fold f n = f n (n.children.map (fold f)) := by
  obtain ⟨i, p, k⟩ := n
  cases k with
  | returning v => cases v <;> rfl
  | ifElse c t e => cases e <;> rfl
  | _ => simp [fold, foldAll_eq_map, children, Kind.children]

end Fold

section Rewrite

variable {m : Type → Type} [Monad m] (f : Node → m Node)

mutual

/-- Rebuild a tree from the leaves upwards: `f` is applied to each node once its children are
done, the first child first. -/
def rewrite : Node → m Node
  | ⟨i, p, .program items⟩ => do f ⟨i, p, .program (← rewriteAll items)⟩
  | ⟨i, p, .classDecl c s fields methods⟩ => do
    f ⟨i, p, .classDecl c s (← rewriteAll fields) (← rewriteAll methods)⟩
  | ⟨i, p, .methodDecl h params locals body⟩ => do
    f ⟨i, p, .methodDecl h (← rewriteAll params) (← rewriteAll locals) (← rewriteAll body)⟩
  | ⟨i, p, .assign t v⟩ => do f ⟨i, p, .assign t (← rewrite v)⟩
  | ⟨i, p, .arrayAssign t e v⟩ => do f ⟨i, p, .arrayAssign t (← rewrite e) (← rewrite v)⟩
  | ⟨i, p, .returning v⟩ => do f ⟨i, p, .returning (← rewrite? v)⟩
  | ⟨i, p, .ifElse c t e⟩ => do
    f ⟨i, p, .ifElse (← rewrite c) (← rewrite t) (← rewrite? e)⟩
  | ⟨i, p, .whileLoop c b⟩ => do f ⟨i, p, .whileLoop (← rewrite c) (← rewrite b)⟩
  | ⟨i, p, .block ss⟩ => do f ⟨i, p, .block (← rewriteAll ss)⟩
  | ⟨i, p, .exprStmt e⟩ => do f ⟨i, p, .exprStmt (← rewrite e)⟩
  | ⟨i, p, .binary op l r⟩ => do f ⟨i, p, .binary op (← rewrite l) (← rewrite r)⟩
  | ⟨i, p, .unary op e⟩ => do f ⟨i, p, .unary op (← rewrite e)⟩
  | ⟨i, p, .newArray t s⟩ => do f ⟨i, p, .newArray t (← rewrite s)⟩
  | ⟨i, p, .arrayLit es⟩ => do f ⟨i, p, .arrayLit (← rewriteAll es)⟩
  | ⟨i, p, .arrayAccess a e⟩ => do f ⟨i, p, .arrayAccess (← rewrite a) (← rewrite e)⟩
  | ⟨i, p, .arrayLength a⟩ => do f ⟨i, p, .arrayLength (← rewrite a)⟩
  | ⟨i, p, .call r n as⟩ => do f ⟨i, p, .call (← rewrite r) n (← rewriteAll as)⟩
  | ⟨i, p, .paren e⟩ => do f ⟨i, p, .paren (← rewrite e)⟩
  | n => f n
termination_by structural n => n

/-- Rebuild several trees. -/
def rewriteAll : List Node → m (List Node)
  | [] => return []
  | n :: ns => do return (← rewrite n) :: (← rewriteAll ns)
termination_by structural ns => ns

/-- Rebuild a tree that may be missing. -/
def rewrite? : Option Node → m (Option Node)
  | none => return none
  | some n => do return some (← rewrite n)
termination_by structural n => n

end

end Rewrite

/-! ## Queries -/

/-- The number of nodes. -/
def size (n : Node) : Nat := n.fold fun _ sizes => sizes.foldr (· + ·) 0 + 1

/-- The node and all below it, each node before its children, in front of a list. -/
def preorderOnto (n : Node) : List Node → List Node :=
  n.fold fun n below rest => n :: below.foldr (fun f rest => f rest) rest

/-- The node and all below it, each node before its children. -/
def preorder (n : Node) : List Node := n.preorderOnto []

theorem preorderOnto_eq (n : Node) (rest : List Node) :
    n.preorderOnto rest = n :: n.children.foldr preorderOnto rest := by
  unfold preorderOnto
  rw [fold_eq, List.foldr_map]

theorem preorderOnto_eq_append (n : Node) (rest : List Node) :
    n.preorderOnto rest = n.preorder ++ rest := by
  induction n using induction generalizing rest with
  | step n ih =>
    have below (ns : List Node) (h : ∀ c ∈ ns, c ∈ n.children) :
        ns.foldr preorderOnto rest = ns.foldr preorderOnto [] ++ rest := by
      induction ns with
      | nil => rfl
      | cons c cs ih' =>
        have hc := ih c (h c List.mem_cons_self)
        simp only [List.foldr_cons]
        rw [hc, hc (cs.foldr preorderOnto []), ih' fun d hd => h d (List.mem_cons_of_mem c hd),
          List.append_assoc]
    rw [preorder, preorderOnto_eq, preorderOnto_eq, below n.children fun _ h => h,
      List.cons_append]

theorem preorder_eq (n : Node) : n.preorder = n :: n.children.flatMap preorder := by
  rw [preorder, preorderOnto_eq]
  congr 1
  induction n.children with
  | nil => rfl
  | cons c cs ih => rw [List.foldr_cons, preorderOnto_eq_append, ih, List.flatMap_cons]

/-- The node below any parentheses around it. -/
def unwrap : Node → Node
  | ⟨_, _, .paren inner⟩ => inner.unwrap
  | n => n
termination_by structural n => n

/-- The imports and classes of a program; another node has none. -/
def items (n : Node) : List Node :=
  match n.kind with
  | .program items => items
  | _ => []

/-- The first class of a program. -/
def class? (n : Node) : Option Node := n.items.find? (·.kind.label = .classDecl)

/-- The imports of a program. -/
def imports (n : Node) : List Node := n.items.filter (·.kind.label = .importDecl)

/-- The fields of the first class. -/
def fields (n : Node) : List Node :=
  match n.class?.map kind with
  | some (.classDecl _ _ fields _) => fields
  | _ => []

/-- The methods of the first class. -/
def methods (n : Node) : List Node :=
  match n.class?.map kind with
  | some (.classDecl _ _ _ methods) => methods
  | _ => []

end Node

end MiniJava
