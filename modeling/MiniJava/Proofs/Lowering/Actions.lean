import MiniJava.Proofs.Lowering.WellTyped

/-!
# Calls and returns in lowered code

What a method does besides computing is to call methods and to return. Its three-address code does
the same in the same order: the calls and returns in the code of a statement (`Ir.actions`) stand
for those that the statement says (`Node.actions`), one for one (`Scope.lowerStmt_acts`). The order
is that of evaluation, a receiver in front of the arguments, except that the code for `else` comes
in front of the code for the other case.

A call stands for another (`Scope.Calls`) if it is static exactly on the name of an import, which it
then names, and if a call on an object of the class of the program has the parameters and the result
of the method there, with one argument for each parameter, also where arguments are packed into an
array.
-/

namespace MiniJava

open Ir

/-! ## Actions -/

/-- Calls and returns. -/
def Label.isAction : Label → Bool
  | call | returning => true
  | _ => false

/-- The calls and returns in a tree, in the order in which the code for it has them. -/
def Node.actions (n : Node) : List Node :=
  n.fold fun n below =>
    (match n.kind, below with
      | .ifElse _ _ (some _), [c, t, e] => c ++ e ++ t
      | _, _ => below.flatten) ++ if n.label.isAction then [n] else []

namespace Ir

/-- What code does besides computing. -/
inductive Action where
  | call (c : Call)
  | ret (value : Option Operand)

/-- What an instruction does. The call of a constructor belongs to the making of the object. -/
def Instr.action? : Instr → Option Action
  | assign _ (.call c) | call c => if c.invocation = .special then none else some (.call c)
  | ret value => some (.ret value)
  | _ => none

/-- What code does, in the order of its instructions. -/
def actions (code : Code) : List Action := code.filterMap Instr.action?

variable {p q : Code} {i : Instr}

@[simp] theorem actions_nil : actions [] = [] := rfl

@[simp] theorem actions_append (p q : Code) : actions (p ++ q) = actions p ++ actions q :=
  List.filterMap_append

theorem actions_cons (i : Instr) (p : Code) : actions (i :: p) = i.action?.toList ++ actions p := by
  unfold actions
  rw [List.filterMap_cons]
  cases i.action? <;> rfl

@[simp] theorem actions_cons_of_none (hi : i.action? = none) : actions (i :: p) = actions p := by
  rw [actions_cons, hi]
  rfl

end Ir

namespace Node

variable {n : Node}

/-- The actions of a node that is no action itself, nor an `if` with two cases. -/
theorem actions_eq (h : [Label.call, .returning, .ifElse].contains n.label = false) :
    n.actions = n.children.flatMap actions := by
  unfold actions
  rw [fold_eq]
  obtain ⟨i, p, k⟩ := n
  cases k with
  | call | returning | ifElse => cases h
  | _ => exact (List.append_nil _).trans List.flatMap_def.symm

@[simp] theorem actions_call (i : Nat) (p : Position) (receiver : Node) (method : String)
    (arguments : List Node) :
    actions ⟨i, p, .call receiver method arguments⟩ = receiver.actions ++
      arguments.flatMap actions ++ [⟨i, p, .call receiver method arguments⟩] := by
  unfold actions
  rw [fold_eq]
  simp [children, Kind.children, label, Kind.label, Label.isAction, List.flatMap_def]

@[simp] theorem actions_returning (i : Nat) (p : Position) (value : Option Node) :
    actions ⟨i, p, .returning value⟩ =
      value.toList.flatMap actions ++ [⟨i, p, .returning value⟩] := by
  unfold actions
  rw [fold_eq]
  simp [children, Kind.children, label, Kind.label, Label.isAction, List.flatMap_def]

@[simp] theorem actions_ifElse_none (i : Nat) (p : Position) (c thenBranch : Node) :
    actions ⟨i, p, .ifElse c thenBranch none⟩ = c.actions ++ thenBranch.actions := by
  unfold actions
  rw [fold_eq]
  simp [children, Kind.children, label, Kind.label, Label.isAction]

@[simp] theorem actions_ifElse_some (i : Nat) (p : Position) (c thenBranch elseBranch : Node) :
    actions ⟨i, p, .ifElse c thenBranch (some elseBranch)⟩ =
      c.actions ++ elseBranch.actions ++ thenBranch.actions := by
  unfold actions
  rw [fold_eq]
  simp [children, Kind.children, label, Kind.label, Label.isAction]

/-- The actions are calls and returns in the tree. -/
theorem mem_actions {m : Node} : m ∈ n.actions ↔ m ∈ n.preorder ∧ m.label.isAction = true := by
  induction n using induction with
  | step n ih =>
    have hbelow : m ∈ n.children.flatMap actions ↔
        (∃ c ∈ n.children, m ∈ c.preorder) ∧ m.label.isAction = true := by
      simp only [List.mem_flatMap]
      constructor
      · rintro ⟨c, hc, hm⟩
        obtain ⟨hm, haction⟩ := (ih c hc).mp hm
        exact ⟨⟨c, hc, hm⟩, haction⟩
      · rintro ⟨⟨c, hc, hm⟩, haction⟩
        exact ⟨c, hc, (ih c hc).mpr ⟨hm, haction⟩⟩
    have hself : m ∈ n.actions ↔
        m ∈ n.children.flatMap actions ∨ m = n ∧ n.label.isAction = true := by
      obtain ⟨i, p, k⟩ := n
      cases k with
      | ifElse c thenBranch elseBranch =>
        cases elseBranch with
        | none => simp [children, Kind.children, label, Kind.label, Label.isAction]
        | some =>
          simp [children, Kind.children, label, Kind.label, Label.isAction]
          tauto
      | call => simp [children, Kind.children, label, Kind.label, Label.isAction, or_assoc]
      | returning => simp [children, Kind.children, label, Kind.label, Label.isAction]
      | _ => simp [actions_eq, label, Kind.label, Label.isAction]
    rw [hself, hbelow, mem_preorder]
    constructor
    · rintro (⟨hm, haction⟩ | ⟨rfl, haction⟩)
      · exact ⟨.inr hm, haction⟩
      · exact ⟨.inl rfl, haction⟩
    · rintro ⟨rfl | hm, haction⟩
      · exact .inr ⟨rfl, haction⟩
      · exact .inl ⟨hm, haction⟩

end Node

namespace Scope

/-- The call stands for a call of this method on this receiver. -/
structure Calls (sc : Scope) (receiver : Node) (method : String) (c : Call) : Prop where
  name : c.method = method
  invocation : c.invocation = if (sc.staticReceiver? receiver).isSome then .static else .virtual
  named : ∀ name, sc.staticReceiver? receiver = some name → c.target.type = .classRef name
  target : sc.isLocalReceiver receiver = true → c.target.type = .classRef sc.table.className
  params : sc.isLocalReceiver receiver = true → ∀ ps, sc.table.params? method = some ps →
    c.paramTypes = some (ps.map fun p => .ofTy p.type) ∧ c.arguments.length = ps.length
  result : sc.isLocalReceiver receiver = true → ∀ t, sc.table.returnType? method = some t →
    c.returnType = .ofTy t

/-- No constructor is called. -/
theorem Calls.ne_special {sc : Scope} {receiver : Node} {method : String} {c : Call}
    (h : sc.Calls receiver method c) : c.invocation ≠ .special := by
  rw [h.invocation]
  split <;> decide

/-- The action stands for the node. -/
inductive Acts (sc : Scope) : Node → Action → Prop
  | call {i : Nat} {p : Position} {receiver : Node} {method : String} {arguments : List Node}
      {c : Call} (h : sc.Calls receiver method c) :
      Acts sc ⟨i, p, .call receiver method arguments⟩ (.call c)
  | ret {i : Nat} {p : Position} : Acts sc ⟨i, p, .returning none⟩ (.ret none)
  | retValue {i : Nat} {p : Position} {value : Node} {o : Operand} {t : Ty}
      (ht : sc.typeOf? sc.resultDemand value = some t) (ho : o.type = .ofTy t) :
      Acts sc ⟨i, p, .returning (some value)⟩ (.ret (some o))

end Scope

/-! ## Values -/

namespace Ir.Lower

variable {R : Node → Action → Prop} {ns ms : List Node} {nss : List (List Node)} {x y : Lower Value}
  {xs : List (Lower Value)}

/-- The code does what these nodes say. -/
abbrev CarriesOut (R : Node → Action → Prop) (ns : List Node) (code : Code) : Prop :=
  List.Forall₂ R ns (actions code)

/-- The code of a value does what these nodes say. -/
abbrev ActsAs (R : Node → Action → Prop) (ns : List Node) (x : Lower Value) : Prop :=
  Yields x (fun v => CarriesOut R ns v.code) fun _ => True

theorem CarriesOut.append {p q : Code} (hp : CarriesOut R ns p) (hq : CarriesOut R ms q) :
    CarriesOut R (ns ++ ms) (p ++ q) := by
  unfold CarriesOut
  rw [actions_append]
  exact List.rel_append hp hq

/-- Instructions that do nothing may be added behind. -/
theorem CarriesOut.concat {p q : Code} (hp : CarriesOut R ns p) (hq : actions q = []) :
    CarriesOut R ns (p ++ q) := by
  unfold CarriesOut
  rwa [actions_append, hq, List.append_nil]

/-- A value that is computed without a call. -/
theorem assignTemp_acts {code : Code} {rhs : Rhs} (hcode : CarriesOut R ns code)
    (hrhs : ∀ dest, (Instr.assign dest rhs).action? = none) :
    ActsAs R ns (assignTemp code rhs) :=
  .seq fun dest => .pure (hcode.concat (actions_cons_of_none (hrhs dest)))

theorem toVar_acts {v : Value} (hv : CarriesOut R ns v.code) :
    Yields (toVar v) (fun a => CarriesOut R ns a.2) fun _ => True := by
  unfold toVar
  split
  · exact .pure hv
  · exact .seq fun dest => .pure (hv.concat rfl)

theorem inOrder_acts (h : List.Forall₂ (ActsAs R) nss xs) :
    Yields (inOrder xs) (fun a => CarriesOut R nss.flatten a.2) fun _ => True := by
  induction h with
  | nil => exact .pure .nil
  | cons hx _ ih => exact hx.bind fun v hv => ih.bind fun a ha => .pure (hv.append ha)

theorem storeFrom_acts (array : Var) (index : Nat) (h : List.Forall₂ (ActsAs R) nss xs) :
    Yields (storeFrom array index xs) (CarriesOut R nss.flatten) fun _ => True := by
  induction h generalizing index with
  | nil => exact .pure .nil
  | cons hx _ ih =>
    refine hx.bind fun v hv => (ih (index + 1)).bind fun code hcode => .pure (hv.append ?_)
    rwa [CarriesOut, actions_cons_of_none rfl]

theorem packArray_acts (t : IrType) (h : List.Forall₂ (ActsAs R) nss xs) :
    Yields (packArray t xs) (fun a => CarriesOut R nss.flatten a.2) fun _ => True :=
  .seq fun array => (storeFrom_acts array 0 h).bind fun code hcode => .pure <| by
    rwa [CarriesOut, actions_cons_of_none rfl]

theorem logical_acts {k : LabelKind} {code : Nat → Var → Value → Value → Code}
    (hx : ActsAs R ns x) (hy : ActsAs R ms y)
    (hcode : ∀ n result a b, actions (code n result a b) = actions a.code ++ actions b.code) :
    ActsAs R (ns ++ ms) (do
      let n ← label k
      let result ← temp .boolean
      let a ← x
      let b ← y
      return ⟨.var result, code n result a b⟩) :=
  .seq fun n => .seq fun result => hx.bind fun a ha => hy.bind fun b hb => .pure <| by
    rw [CarriesOut, hcode]
    exact List.rel_append ha hb

theorem binary_acts (op : BinaryOp) (hx : ActsAs R ns x) (hy : ActsAs R ms y) :
    ActsAs R (ns ++ ms) (binary op x y) := by
  have hvalue (op' : BinOp) : ActsAs R (ns ++ ms) (do
      let a ← x
      let b ← y
      assignTemp (a.code ++ b.code) (.binary op' a.operand b.operand)) :=
    hx.bind fun a ha => hy.bind fun b hb => assignTemp_acts (ha.append hb) fun _ => rfl
  cases op with
  | and =>
    refine logical_acts (k := .and) hx hy fun n result a b => ?_
    simp [actions_cons, Instr.action?]
  | or =>
    refine logical_acts (k := .or) hx hy fun n result a b => ?_
    simp [actions_cons, Instr.action?]
  | _ => exact hvalue _

/-- What is given among all variables is yielded. -/
theorem Gives.yields {α : Type} {K : Var → Prop} {x : Lower α} {P : (Var → Prop) → α → Prop}
    (h : Gives K x P) : Yields x (P fun _ => True) fun _ => True := by
  intro s
  split
  · rename_i a s' ha
    obtain ⟨temps, -, hP⟩ := h s a s' ha
    exact hP _ (fun _ _ => trivial) fun _ _ => trivial
  · exact trivial

end Ir.Lower

namespace Scope

open Lower

variable {sc : Scope} {n : Node} {R : Node → Action → Prop}

/-! ## Calls -/

theorem lowerName_acts (name : String) (p : Position) : ActsAs R [] (sc.lowerName name p) := by
  unfold lowerName
  split
  · exact .pure .nil
  · exact .pure .nil
  · exact .pure .nil
  · exact assignTemp_acts .nil fun _ => rfl
  · exact .throw trivial

theorem lowerArguments_acts (receiver : Node) (method : String) (arguments : List Node)
    {values : List (Lower Value)} {nss : List (List Node)}
    (h : List.Forall₂ (ActsAs R) nss values) :
    Yields (sc.lowerArguments receiver method arguments values)
      (fun a => CarriesOut R nss.flatten a.2) fun _ => True := by
  rw [lowerArguments_eq]
  split
  · rename_i k t hpacking
    rw [← List.take_append_drop k nss, List.flatten_append]
    refine (inOrder_acts (List.forall₂_take k h)).bind fun a ha => ?_
    exact (packArray_acts t (List.forall₂_drop k h)).bind fun b hb => .pure (ha.append hb)
  · exact inOrder_acts h

/-- Nothing is done for the name of an import. -/
theorem actions_of_staticReceiver? {receiver : Node} {name : String}
    (h : sc.staticReceiver? receiver = some name) : receiver.actions = [] := by
  obtain ⟨i, p, k⟩ := receiver
  cases k with
  | varRef => rfl
  | _ => cases h

/-- What a call says of the method: its name, its receiver, its result, and its parameters as far as
the class declares them. -/
theorem lowerCall_says (t : IrType) (receiver : Node) (method : String) (arguments : List Node)
    {r : Ty} {target : Lower Value} {values : List (Lower Value)}
    (htype : Lower.Typed target (.ofTy r) fun _ => True)
    (hstatic : ∀ name, sc.staticReceiver? receiver = some name → IrType.ofTy r = .classRef name) :
    Yields (sc.lowerCall t receiver method arguments target values)
      (fun a => a.1.method = method ∧
        a.1.invocation = (if (sc.staticReceiver? receiver).isSome then .static else .virtual) ∧
        a.1.target.type = .ofTy r ∧ a.1.returnType = t ∧
        a.1.paramTypes = sc.declaredParams? receiver method a.1.arguments.length)
      fun _ => True := by
  unfold lowerCall
  cases hname : sc.staticReceiver? receiver with
  | some name =>
    simp only [pure_bind]
    exact .seq fun a => .pure ⟨rfl, rfl, (hstatic name hname).symm, rfl, rfl⟩
  | none =>
    simp only [pure_bind]
    exact htype.bind fun v hv => .seq fun a => .pure ⟨rfl, rfl, hv, rfl, rfl⟩

/-- The receiver and the arguments of a call are computed in front of it. -/
theorem lowerCall_acts (t : IrType) (receiver : Node) (method : String) (arguments : List Node)
    {target : Lower Value} {values : List (Lower Value)} {nss : List (List Node)}
    (htarget : ActsAs R receiver.actions target) (h : List.Forall₂ (ActsAs R) nss values) :
    Yields (sc.lowerCall t receiver method arguments target values)
      (fun a => CarriesOut R (receiver.actions ++ nss.flatten) a.2) fun _ => True := by
  have harguments := sc.lowerArguments_acts receiver method arguments h
  unfold lowerCall
  cases hname : sc.staticReceiver? receiver with
  | some name =>
    simp only [pure_bind]
    refine harguments.bind fun a ha => .pure ?_
    rw [actions_of_staticReceiver? hname]
    exact ha
  | none =>
    simp only [pure_bind]
    exact htarget.bind fun v hv => harguments.bind fun a ha => .pure (hv.append ha)

theorem lowerEach_acts {ns : List Node} (h : ∀ n ∈ ns, ∀ d, ActsAs R n.actions (sc.lowerExpr d n))
    (ds : List Ty) : List.Forall₂ (ActsAs R) (ns.map Node.actions) (sc.lowerEach ds ns) := by
  induction ns generalizing ds with
  | nil => exact .nil
  | cons n ns ih =>
    obtain ⟨hn, hns⟩ := List.forall_mem_cons.mp h
    exact .cons (hn _) (ih hns ds.tail)

/-- A static receiver has the type of the import that it names. -/
theorem ofTy_of_staticReceiver? {receiver : Node} {name : String} {r : Ty}
    (hwellFormed : receiver.WellFormed) (hr : sc.typeOf? .object receiver = some r)
    (hname : sc.staticReceiver? receiver = some name) : IrType.ofTy r = .classRef name := by
  obtain ⟨i, p, k⟩ := receiver
  cases k with
  | varRef x =>
    simp only [staticReceiver?] at hname
    split at hname
    · rename_i path hpath
      cases hname
      simp only [typeOf?, ownType?, variableType?, hpath, Option.map_some, Binding.type,
        Option.some.injEq] at hr
      rw [← hr, simpleName_of_lookup? hpath]
      exact IrType.ofTy_ofClass hwellFormed.fits
    · cases hname
  | _ => cases hname

/-- **A call that passes the checks is lowered to one that stands for it.** Where the class declares
the method, it has the type of the method. -/
theorem call_calls (hplaced : sc.placed = none) (hclass : IsIdentifier sc.table.className)
    (hrows : sc.TakesRowsInArrays) {i : Nat} {p : Position} {receiver : Node} {method : String}
    {arguments : List Node} (h : sc.Approves ⟨i, p, .call receiver method arguments⟩) (d : Ty) :
    Yields (sc.lowerCall (.ofTy ((sc.typeOf? d ⟨i, p, .call receiver method arguments⟩).getD d))
        receiver method arguments (sc.lowerExpr .object receiver)
        (sc.lowerEach (sc.argumentDemands receiver method arguments) arguments))
      (fun a => sc.Calls receiver method a.1) fun _ => True := by
  have hexpr {c : Node} (hc : c ∈ receiver :: arguments) : c.IsExpr :=
    h.wellFormed.isExpr_of_mem_children rfl hc
  have hreceiver := h.child (m := receiver) List.mem_cons_self
  obtain ⟨r, hr, htarget⟩ :=
    sc.hasLoweredType hplaced hclass hreceiver (hexpr List.mem_cons_self) .object
  have hgives := (call_gives hrows h.namesHere hreceiver.wellFormed (fun c hc d =>
    sc.lowerExpr_givesTyped hplaced hclass hrows (h.child hc) (hexpr hc) d)
    (.ofTy ((sc.typeOf? d ⟨i, p, .call receiver method arguments⟩).getD d))).yields
  refine ((sc.lowerCall_says _ receiver method arguments htarget.anyFailure fun name =>
    ofTy_of_staticReceiver? hreceiver.wellFormed hr).and hgives).mono fun a hboth => ?_
  obtain ⟨⟨hmethod, hinvocation, htype, hresult, hparams⟩, hin⟩ := hboth
  have hlocal (hlocal : sc.isLocalReceiver receiver = true) : r = sc.table.classType := by
    rw [isLocalReceiver, hr] at hlocal
    exact Option.some.inj (of_decide_eq_true hlocal)
  have htype' (h : sc.isLocalReceiver receiver = true) :
      a.1.target.type = .classRef sc.table.className := by
    rw [htype, hlocal h]
    exact IrType.ofTy_ofClass hclass
  have hnamed (name : String) (hname : sc.staticReceiver? receiver = some name) :
      a.1.target.type = .classRef name :=
    htype.trans (ofTy_of_staticReceiver? hreceiver.wellFormed hr hname)
  refine ⟨hmethod, hinvocation, hnamed, htype', fun h ps hps => ?_, fun h t ht => ?_⟩
  · have hspecial : a.1.invocation ≠ .special := by
      rw [hinvocation]
      split <;> decide
    have hlength : a.1.arguments.length = ps.length := by
      have hfits := hin.1.1.arguments hspecial (htype' h) _ (hmethod.symm ▸ params?_context hps)
      simpa using hfits.length_eq.symm
    refine ⟨?_, hlength⟩
    rw [hparams, declaredParams?, if_pos h, hps]
    simp only [hlength, if_true]
  · have hknown : sc.knownReturn? (sc.typeOf? .object receiver) method = some t := by
      rw [knownReturn?, hr, hlocal h, if_pos rfl, ht]
    rw [hresult, typeOf?, hknown]
    rfl

/-- A call stands behind the code for its parts. -/
theorem call_acts (hplaced : sc.placed = none) (hclass : IsIdentifier sc.table.className)
    (hrows : sc.TakesRowsInArrays) {i : Nat} {p : Position} {receiver : Node} {method : String}
    {arguments : List Node} (h : sc.Approves ⟨i, p, .call receiver method arguments⟩)
    (hacts : ∀ c ∈ receiver :: arguments, ∀ d, ActsAs R c.actions (sc.lowerExpr d c)) (d : Ty) :
    Yields (sc.lowerCall (.ofTy ((sc.typeOf? d ⟨i, p, .call receiver method arguments⟩).getD d))
        receiver method arguments (sc.lowerExpr .object receiver)
        (sc.lowerEach (sc.argumentDemands receiver method arguments) arguments))
      (fun a => CarriesOut R (receiver.actions ++ arguments.flatMap Node.actions) a.2 ∧
        sc.Calls receiver method a.1) fun _ => True := by
  obtain ⟨hfirst, hrest⟩ := List.forall_mem_cons.mp hacts
  have hcode := sc.lowerCall_acts
    (.ofTy ((sc.typeOf? d ⟨i, p, .call receiver method arguments⟩).getD d)) receiver method
    arguments (hfirst .object) (lowerEach_acts hrest (sc.argumentDemands receiver method arguments))
  rw [← List.flatMap_def] at hcode
  exact hcode.and (call_calls hplaced hclass hrows h d)

/-! ## Expressions -/

/-- **The code for an expression that passes all checks calls what the expression says.** -/
theorem lowerExpr_acts (hplaced : sc.placed = none) (hclass : IsIdentifier sc.table.className)
    (hrows : sc.TakesRowsInArrays) (h : sc.Approves n) (hn : n.IsExpr) (d : Ty) :
    ActsAs sc.Acts n.actions (sc.lowerExpr d n) := by
  induction n using Node.induction generalizing d with
  | step n ih =>
    have ih (c : Node) (hc : c ∈ n.children) (d : Ty) :
        ActsAs sc.Acts c.actions (sc.lowerExpr d c) :=
      ih c hc (h.child hc) (h.wellFormed.isExpr_of_mem_children hn hc) d
    have hactions := n.actions_eq
    obtain ⟨i, p, k⟩ := n
    cases k with
    | program | importDecl | classDecl | varDecl | methodDecl | param | assign | arrayAssign
    | returning | ifElse | whileLoop | block | exprStmt => cases hn
    | intLit | boolLit | this => exact .pure .nil
    | varRef name => exact sc.lowerName_acts name p
    | paren inner =>
      rw [hactions rfl, Node.children, Kind.children, List.flatMap_singleton]
      exact ih inner List.mem_cons_self d
    | binary op left right =>
      rw [hactions rfl]
      simp only [Node.children, Kind.children, List.flatMap_cons, List.flatMap_nil, List.append_nil]
      exact binary_acts op (ih left List.mem_cons_self _)
        (ih right mem_second _)
    | unary op operand =>
      rw [hactions rfl, Node.children, Kind.children, List.flatMap_singleton]
      cases op
      exact (ih operand List.mem_cons_self _).bind fun v hv => assignTemp_acts hv fun _ => rfl
    | newObject className =>
      have hobject : ActsAs sc.Acts [] (assignTemp [] (.newObject className)) :=
        assignTemp_acts .nil fun _ => rfl
      exact hobject.bind fun v hv => .pure (hv.concat rfl)
    | newArray element size =>
      rw [hactions rfl, Node.children, Kind.children, List.flatMap_singleton]
      exact (ih size List.mem_cons_self _).bind fun v hv => assignTemp_acts hv fun _ => rfl
    | arrayAccess array index =>
      rw [hactions rfl]
      simp only [Node.children, Kind.children, List.flatMap_cons, List.flatMap_nil, List.append_nil]
      refine (ih array List.mem_cons_self _).bind fun v hv => (toVar_acts hv).bind fun x hx => ?_
      refine (ih index mem_second _).bind fun j hj => ?_
      exact assignTemp_acts (hx.append hj) fun _ => rfl
    | arrayLength array =>
      rw [hactions rfl, Node.children, Kind.children, List.flatMap_singleton]
      refine (ih array List.mem_cons_self _).bind fun v hv => ?_
      exact (toVar_acts hv).bind fun x hx => assignTemp_acts hx fun _ => rfl
    | arrayLit elements =>
      rw [hactions rfl]
      have heach := lowerEach_acts (fun c hc => ih c hc) (sc.elementDemands elements)
      exact (packArray_acts _ heach).bind fun a ha => .pure (by rwa [List.flatMap_def])
    | call receiver method arguments =>
      rw [Node.actions_call, lowerExpr_call]
      refine (call_acts hplaced hclass hrows h ih d).bind ?_
      rintro ⟨c, code⟩ ⟨hcode, hc⟩
      by_cases hvoid : c.returnType = .void
      · simp only [hvoid, if_true]
        exact (Yields.throw (P := fun _ => False) trivial).bind fun _ h => h.elim
      · simp only [hvoid, if_false]
        refine .seq fun dest => .pure (hcode.append ?_)
        simp only [CarriesOut, actions_cons, Instr.action?, if_neg hc.ne_special]
        exact .cons (.call hc) .nil

/-! ## Statements -/

/-- A computation does the same if it ends in another variable. -/
theorem actions_retarget (dest : Var) (v : Value) :
    actions ((retarget? dest v).getD (v.code ++ [.assign dest (.single v.operand)])) =
      actions v.code := by
  cases hretarget : retarget? dest v with
  | none => simp [actions_cons, Instr.action?]
  | some code =>
    obtain ⟨front, last, rhs, rfl, rfl⟩ := retarget?_eq_some hretarget
    cases rhs <;> simp [actions_cons, Instr.action?]

theorem lowerAssign_acts {ns : List Node} {x : Lower Value} (hx : ActsAs R ns x) (target : String)
    (p : Position) : Yields (sc.lowerAssign target p x) (CarriesOut R ns) fun _ => True := by
  refine hx.bind fun v hv => ?_
  have hassign (dest : Var) : CarriesOut R ns ((retarget? dest v).getD
      (v.code ++ [.assign dest (.single v.operand)])) := by
    rwa [CarriesOut, actions_retarget]
  split
  · exact .pure (hassign _)
  · exact .pure (hassign _)
  · exact .pure (hv.concat rfl)
  · exact .throw trivial
  · exact .throw trivial

theorem lowerArrayName_acts (target : String) (p : Position) :
    Yields (sc.lowerArrayName target p) (fun a => CarriesOut R [] a.2) fun _ => True := by
  unfold lowerArrayName
  split
  · exact .pure .nil
  · exact .pure .nil
  · exact .seq fun dest => .pure .nil
  · exact .throw trivial
  · exact .throw trivial

theorem lowerDropped_acts (hplaced : sc.placed = none) (hclass : IsIdentifier sc.table.className)
    (hrows : sc.TakesRowsInArrays) (h : sc.Approves n) (hn : n.IsExpr) :
    Yields (sc.lowerDropped n) (CarriesOut sc.Acts n.actions) fun _ => True := by
  induction n using Node.induction with
  | step n ih =>
    have hexpr {c : Node} (hc : c ∈ n.children) : c.IsExpr :=
      h.wellFormed.isExpr_of_mem_children hn hc
    have hchild (c : Node) (hc : c ∈ n.children) :=
      lowerExpr_acts hplaced hclass hrows (h.child hc) (hexpr hc)
    have hvalue := lowerExpr_acts hplaced hclass hrows h hn .void
    have hactions := n.actions_eq
    obtain ⟨i, p, k⟩ := n
    cases k with
    | paren inner =>
      rw [hactions rfl, Node.children, Kind.children, List.flatMap_singleton]
      exact ih inner List.mem_cons_self (h.child List.mem_cons_self) (hexpr List.mem_cons_self)
    | call receiver method arguments =>
      rw [Node.actions_call, lowerDropped_call]
      refine (call_acts hplaced hclass hrows h hchild .void).bind ?_
      rintro ⟨c, code⟩ ⟨hcode, hc⟩
      refine .pure (hcode.append ?_)
      simp only [CarriesOut, actions_cons, Instr.action?, if_neg hc.ne_special]
      exact .cons (.call hc) .nil
    | _ => exact hvalue.bind fun v hv => .pure hv

theorem lowerStmts_acts {ns : List Node}
    (h : ∀ n ∈ ns, Yields (sc.lowerStmt n) (CarriesOut R n.actions) fun _ => True) :
    Yields (sc.lowerStmts ns) (CarriesOut R (ns.flatMap Node.actions)) fun _ => True := by
  induction ns with
  | nil => exact .pure .nil
  | cons n ns ih =>
    obtain ⟨hn, hns⟩ := List.forall_mem_cons.mp h
    exact hn.bind fun p hp => (ih hns).bind fun q hq => .pure (hp.append hq)

theorem actions_closeWith (code : Code) (target : String) :
    actions (closeWith code target) = actions code := by
  unfold closeWith
  split
  · rfl
  · simp [actions_cons, Instr.action?]

/-- **The code for a statement that passes all checks calls and returns what the statement says**,
in the same order. -/
theorem lowerStmt_acts (hplaced : sc.placed = none) (hclass : IsIdentifier sc.table.className)
    (hrows : sc.TakesRowsInArrays) (h : sc.Approves n) (hn : n.IsStmt) :
    Yields (sc.lowerStmt n) (CarriesOut sc.Acts n.actions) fun _ => True := by
  induction n using Node.induction with
  | step n ih =>
    have hexpr {c : Node} (hc : c ∈ n.children) (hc' : c.IsExpr) (d : Ty) :=
      lowerExpr_acts hplaced hclass hrows (h.child hc) hc' d
    have hstmt {c : Node} (hc : c ∈ n.children) (hc' : c.IsStmt) := ih c hc (h.child hc) hc'
    have htyped {c : Node} (hc : c ∈ n.children) (hc' : c.IsExpr) (d : Ty) :=
      sc.hasLoweredType hplaced hclass (h.child hc) hc' d
    have hfits := h.wellFormed.fits
    have hactions := n.actions_eq
    obtain ⟨i, p, k⟩ := n
    cases k with
    | assign target value =>
      rw [hactions rfl, Node.children, Kind.children, List.flatMap_singleton]
      exact lowerAssign_acts (hexpr List.mem_cons_self (hfits value List.mem_cons_self) _) target p
    | arrayAssign target index value =>
      rw [hactions rfl]
      simp only [Node.children, Kind.children, List.flatMap_cons, List.flatMap_nil, List.append_nil]
      have hmem : value ∈ [index, value] := mem_second
      refine (lowerArrayName_acts (R := sc.Acts) target p).bind fun a ha => ?_
      refine (hexpr List.mem_cons_self (hfits index List.mem_cons_self) .int).bind fun j hj => ?_
      refine (hexpr hmem (hfits value hmem) _).bind fun v hv => .pure ?_
      exact ((ha.append hj).append hv).concat rfl
    | returning value =>
      cases value with
      | none => exact .pure (.cons .ret .nil)
      | some value =>
        rw [Node.actions_returning, Option.toList_some, List.flatMap_singleton]
        have hvalue := hfits value List.mem_cons_self
        obtain ⟨t, ht, htype⟩ := htyped List.mem_cons_self hvalue sc.resultDemand
        refine ((hexpr List.mem_cons_self hvalue _).and htype.anyFailure).bind fun v hv => .pure ?_
        exact hv.1.append (.cons (.retValue ht hv.2) .nil)
    | ifElse c thenBranch elseBranch =>
      obtain ⟨hc, hthen, helse⟩ := hfits
      have hcond := hexpr List.mem_cons_self hc .boolean
      have hthen := hstmt mem_second hthen
      cases elseBranch with
      | none =>
        rw [Node.actions_ifElse_none]
        refine .seq fun k => hcond.bind fun v hv => hthen.bind fun thenCode ht => .pure ?_
        exact ((hv.concat rfl).append ht).concat rfl
      | some elseBranch =>
        have helse := hstmt mem_third
          (helse elseBranch rfl)
        rw [Node.actions_ifElse_some]
        refine .seq fun k => hcond.bind fun v hv => helse.bind fun elseCode he => ?_
        refine hthen.bind fun thenCode ht => .pure ?_
        have hclosed : CarriesOut sc.Acts elseBranch.actions
            (closeWith (.branch v.operand ("if_then_" ++ toString k) :: elseCode)
              ("if_end_" ++ toString k)) := by
          rwa [CarriesOut, actions_closeWith, actions_cons_of_none rfl]
        exact (((hv.append hclosed).concat rfl).append ht).concat rfl
    | whileLoop c body =>
      obtain ⟨hc, hbody⟩ := hfits
      rw [hactions rfl]
      simp only [Node.children, Kind.children, List.flatMap_cons, List.flatMap_nil, List.append_nil]
      refine .seq fun k => (hexpr List.mem_cons_self hc .boolean).bind fun v hv => ?_
      have hbodyCode := hstmt mem_second hbody
      refine hbodyCode.bind fun bodyCode hb => .pure ?_
      have hcond : CarriesOut sc.Acts c.actions
          ([.label ("while_cond_" ++ toString k)] ++ v.code) := by
        rwa [CarriesOut, List.singleton_append, actions_cons_of_none rfl]
      exact ((hcond.concat rfl).append hb).concat rfl
    | block statements =>
      rw [hactions rfl]
      exact lowerStmts_acts fun c hc => hstmt hc (hfits c hc)
    | exprStmt e =>
      rw [hactions rfl, Node.children, Kind.children, List.flatMap_singleton]
      exact lowerDropped_acts hplaced hclass hrows (h.child List.mem_cons_self)
        (hfits e List.mem_cons_self)
    | _ => cases hn

end Scope

/-! ## Methods -/

/-- The actions of a method are those of its body. -/
theorem Node.actions_methodDecl {n : Node} {head : MethodHead} {params locals body : List Node}
    (hkind : n.kind = .methodDecl head params locals body) (h : n.WellFormed) :
    n.actions = body.flatMap actions := by
  have hfits := h.fits
  rw [hkind] at hfits
  obtain ⟨hparams, hlocals, -⟩ := hfits
  have leaf (c : Node) (hleaf : c.label = .param ∨ c.label = .varDecl) : c.actions = [] := by
    obtain ⟨i, p, k⟩ := c
    cases k with
    | param | varDecl => rfl
    | _ => rcases hleaf with hleaf | hleaf <;> cases hleaf
  rw [actions_eq (by rw [label, hkind]; rfl), children, hkind, Kind.children, List.flatMap_append,
    List.flatMap_append, List.flatMap_eq_nil_iff.mpr fun c hc => leaf c (.inl (hparams c hc)),
    List.flatMap_eq_nil_iff.mpr fun c hc => leaf c (.inr (hlocals c hc))]
  rfl

/-- **The code of a method that passes all checks calls and returns what the method says**, in the
same order. Behind that a method without result may return once more. -/
theorem lowerMethod_acts {table : SymbolTable} {n : Node} {head : MethodHead}
    {params locals body : List Node} {m : Method} {s s' : Supply}
    (hclass : IsIdentifier table.className)
    (hrows : (Scope.ofMethod table head).TakesRowsInArrays)
    (hkind : n.kind = .methodDecl head params locals body)
    (h : (Scope.ofMethod table head).Approves n)
    (hm : (lowerMethod (Scope.ofMethod table) n).run s = .ok (m, s')) :
    ∃ as, List.Forall₂ (Scope.ofMethod table head).Acts n.actions as ∧
      (actions m.code = as ∨
        actions m.code = as ++ [.ret none] ∧ IrType.ofTy (.ofExpr head.returnType) = .void) := by
  obtain ⟨head', params', locals', body', code, hkind', hcode, -, -, -, hbody⟩ :=
    lowerMethod_eq_ok hm
  cases hkind.symm.trans hkind'
  have hacts := (Scope.lowerStmts_acts fun c hc => Scope.lowerStmt_acts rfl hclass hrows
    (h.statement hkind hc).1 (h.statement hkind hc).2.1).of_run hcode
  rw [← Node.actions_methodDecl hkind h.wellFormed] at hacts
  refine ⟨actions code, hacts, ?_⟩
  rcases hbody with ⟨hm, hvoid⟩ | ⟨hm, -⟩
  · exact .inr ⟨by rw [hm, actions_append]; rfl, hvoid⟩
  · exact .inl (by rw [hm])

end MiniJava
