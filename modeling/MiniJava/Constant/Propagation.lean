import MiniJava.Constant
import MiniJava.Constant.Counted
import MiniJava.Typing

/-!
# Constant propagation

Going through the statements of a method in order, a pass (`ConstantPropagation`) remembers which
variables are known to hold a constant (`Env`) and replaces each reading of such a variable by the
literal. Only parameters and local variables are remembered (`tracked_names`): a field may be
changed by any method.

Where control flow splits, the pass is cautious. A variable that is assigned in the body of a loop
is forgotten before the condition (`assigned_names`). Behind an `if`, a variable is known if both
branches agree on it.
-/

namespace MiniJava

/-! ## What is known -/

/-- The variables with known values. -/
structure Known where
  entries : List (String × Constant) := []
deriving Repr, Inhabited

namespace Known

/-- The value of a variable. -/
def get? (k : Known) (name : String) : Option Constant := k.entries.lookup name

/-- Forget the variables whose names do not fulfil a condition. -/
def keep (k : Known) (p : String → Bool) : Known := ⟨k.entries.filter fun e => p e.1⟩

/-- Forget a variable. -/
def erase (k : Known) (name : String) : Known := k.keep (· != name)

/-- Forget several variables. -/
def eraseAll (k : Known) (names : List String) : Known := k.keep fun name => !names.contains name

/-- Remember the value of a variable. -/
def insert (k : Known) (name : String) (c : Constant) : Known :=
  ⟨(name, c) :: (k.erase name).entries⟩

/-- What two states agree on. -/
def meet (k l : Known) : Known := k.keep fun name => k.get? name == l.get? name

theorem get?_keep (k : Known) (p : String → Bool) (x : String) :
    (k.keep p).get? x = if p x then k.get? x else none := by
  obtain ⟨es⟩ := k
  simp only [get?, keep]
  induction es with
  | nil => simp
  | cons e es ih =>
    simp only [List.filter_cons]
    grind

@[simp] theorem get?_erase (k : Known) (x y : String) :
    (k.erase x).get? y = if y = x then none else k.get? y := by
  simp [erase, get?_keep, ite_not]

@[simp] theorem get?_eraseAll (k : Known) (xs : List String) (y : String) :
    (k.eraseAll xs).get? y = if y ∈ xs then none else k.get? y := by
  simp [eraseAll, get?_keep, ite_not]

@[simp] theorem get?_insert (k : Known) (x y : String) (c : Constant) :
    (k.insert x c).get? y = if y = x then some c else k.get? y := by
  have h := get?_erase k x y
  simp only [get?, insert, List.lookup_cons] at h ⊢
  grind

@[simp] theorem get?_meet (k l : Known) (x : String) :
    (k.meet l).get? x = if k.get? x = l.get? x then k.get? x else none := by
  simp [meet, get?_keep]

/-- The state behind an assignment of a value, which may be a literal. Only variables that are
`tracked` are remembered. -/
def assign (k : Known) (tracked : List String) (name : String) (value : Option Constant) : Known :=
  if tracked.contains name then
    match value with
    | some c => k.insert name c
    | none => k.erase name
  else k

end Known

/-! ## Expressions -/

mutual

/-- Replace the variables of an expression that are known. -/
def Node.substitute (k : Known) : Node → Counted Node
  | ⟨i, p, .varRef name⟩ =>
    match k.get? name with
    | some c => .once ⟨i, p, c.toKind⟩
    | none => return ⟨i, p, .varRef name⟩
  | ⟨i, p, .binary op l r⟩ => return ⟨i, p, .binary op (← l.substitute k) (← r.substitute k)⟩
  | ⟨i, p, .unary op e⟩ => return ⟨i, p, .unary op (← e.substitute k)⟩
  | ⟨i, p, .newArray t s⟩ => return ⟨i, p, .newArray t (← s.substitute k)⟩
  | ⟨i, p, .arrayLit es⟩ => return ⟨i, p, .arrayLit (← substituteAll k es)⟩
  | ⟨i, p, .arrayAccess a e⟩ => return ⟨i, p, .arrayAccess (← a.substitute k) (← e.substitute k)⟩
  | ⟨i, p, .arrayLength a⟩ => return ⟨i, p, .arrayLength (← a.substitute k)⟩
  | ⟨i, p, .call r m as⟩ => return ⟨i, p, .call (← r.substitute k) m (← substituteAll k as)⟩
  | ⟨i, p, .paren e⟩ => return ⟨i, p, .paren (← e.substitute k)⟩
  | n => return n
termination_by structural n => n

/-- Replace the variables of several expressions. -/
def substituteAll (k : Known) : List Node → Counted (List Node)
  | [] => return []
  | n :: ns => return (← n.substitute k) :: (← substituteAll k ns)
termination_by structural ns => ns

end

/-! ## Statements -/

/-- The variables that are assigned somewhere below a node. -/
def Node.assignedNames (n : Node) : List String :=
  n.preorder.filterMap fun m =>
    match m.kind with
    | .assign target _ => some target
    | _ => none

mutual

/-- Replace the known variables of a statement, and say what is known behind it. -/
def Node.propagate (tracked : List String) (k : Known) : Node → Counted (Node × Known)
  | ⟨i, p, .assign target value⟩ => do
    let value ← value.substitute k
    return (⟨i, p, .assign target value⟩, k.assign tracked target value.literal?)
  | ⟨i, p, .arrayAssign target index value⟩ => do
    let index ← index.substitute k
    let value ← value.substitute k
    return (⟨i, p, .arrayAssign target index value⟩, k)
  | ⟨i, p, .returning (some value)⟩ => do
    let value ← value.substitute k
    return (⟨i, p, .returning (some value)⟩, k)
  | ⟨i, p, .exprStmt e⟩ => do
    let e ← e.substitute k
    return (⟨i, p, .exprStmt e⟩, k)
  | ⟨i, p, .block statements⟩ => do
    let (statements, k) ← propagateAll tracked k statements
    return (⟨i, p, .block statements⟩, k)
  | ⟨i, p, .ifElse condition thenBranch none⟩ => do
    let condition ← condition.substitute k
    let (thenBranch, kt) ← thenBranch.propagate tracked k
    return (⟨i, p, .ifElse condition thenBranch none⟩, kt.meet k)
  | ⟨i, p, .ifElse condition thenBranch (some elseBranch)⟩ => do
    let condition ← condition.substitute k
    let (thenBranch, kt) ← thenBranch.propagate tracked k
    let (elseBranch, ke) ← elseBranch.propagate tracked k
    return (⟨i, p, .ifElse condition thenBranch (some elseBranch)⟩, kt.meet ke)
  | ⟨i, p, .whileLoop condition body⟩ => do
    let k := k.eraseAll body.assignedNames
    let condition ← condition.substitute k
    let (body, _) ← body.propagate tracked k
    return (⟨i, p, .whileLoop condition body⟩, k)
  | n => return (n, k)
termination_by structural n => n

/-- Replace the known variables of statements that follow each other. -/
def propagateAll (tracked : List String) (k : Known) : List Node → Counted (List Node × Known)
  | [] => return ([], k)
  | n :: ns => do
    let (n, k) ← n.propagate tracked k
    let (ns, k) ← propagateAll tracked k ns
    return (n :: ns, k)
termination_by structural ns => ns

end

/-! ## Programs -/

/-- The parameters and local variables of a method, as far as their names mean them. -/
def trackedNames (t : SymbolTable) (head : MethodHead) : List String :=
  let sc := Scope.ofMethod t head
  let declared := (t.params? head.name).getD [] ++ (t.locals? head.name).getD []
  (declared.map Variable.name).filter fun name =>
    ((sc.lookup? name).map Binding.isMethodVariable).getD false

/-- Replace the known variables of a method. At its begin nothing is known. -/
def propagateMethod (t : SymbolTable) (n : Node) : Counted Node :=
  match n.kind with
  | .methodDecl head params locals body => do
    let (body, _) ← propagateAll (trackedNames t head) {} body
    return { n with kind := .methodDecl head params locals body }
  | _ => return n

/-- Replace the known variables of the first class. -/
def propagateItems (t : SymbolTable) : List Node → Counted (List Node)
  | [] => return []
  | n :: ns =>
    match n.kind with
    | .classDecl name superclass fields methods => do
      let methods ← methods.mapM (propagateMethod t)
      return { n with kind := .classDecl name superclass fields methods } :: ns
    | _ => return n :: (← propagateItems t ns)

/-- One pass of propagation. -/
def propagateConstants (t : SymbolTable) (root : Node) : Counted Node :=
  match root.kind with
  | .program items => return { root with kind := .program (← propagateItems t items) }
  | _ => return root

end MiniJava
