import MiniJava.Proofs.Optimize.Lowering

/-!
# Calls in assembly

The calls in the assembly of a method (`Jvm.EmittedMethod.calls`) are those in its source
(`Node.callSites`), one for one and in the order of evaluation, whether the program was optimized or
not: what becomes a literal has no calls in it (`Node.Simplified.forall₂_calls`).

A call of a method of the class on an instance of it agrees with the header of that method
(`calls_agree_of_compile`): the header has its descriptor from the declaration and the call from the
symbol table, and as many arguments are loaded as the descriptor has parameters, also where some of
them are packed into an array. `main` is left out, since its result is `void` in the table whatever
is declared.

A call is static exactly on the name of an import (`invocations_of_compile`). The method that is
called does not count, so that `main`, the only static method, is called like the others
(`not_fits_main`).
-/

namespace MiniJava

open Ir

/-! ## Calls in the source -/

namespace Node

variable {n : Node}

/-- The node, if it is a call. -/
def asCall? (n : Node) : Option Node := if n.label = .call then some n else none

/-- The calls in a tree, in the order in which the code for it has them. -/
def calls (n : Node) : List Node := n.actions.filterMap asCall?

theorem flatMap_calls (ns : List Node) :
    ns.flatMap calls = (ns.flatMap actions).filterMap asCall? := by
  rw [List.filterMap_flatMap]
  rfl

/-- The calls in a node that is no call itself, nor an `if` with two cases. -/
theorem calls_eq (h : [Label.call, .ifElse].contains n.label = false) :
    n.calls = n.children.flatMap calls := by
  rw [flatMap_calls]
  unfold calls
  by_cases hreturn : n.label = .returning
  · obtain ⟨i, p, k⟩ := n
    cases k with
    | returning value =>
      rw [actions_returning, List.filterMap_append]
      exact List.append_nil _
    | _ => cases hreturn
  · rw [actions_eq]
    revert h hreturn
    cases n.label <;> decide

theorem calls_call (i : Nat) (p : Position) (receiver : Node) (method : String)
    (arguments : List Node) :
    calls ⟨i, p, .call receiver method arguments⟩ = receiver.calls ++ arguments.flatMap calls ++
      [⟨i, p, .call receiver method arguments⟩] := by
  rw [flatMap_calls]
  unfold calls
  rw [actions_call, List.filterMap_append, List.filterMap_append]
  rfl

theorem calls_ifElse_none (i : Nat) (p : Position) (c thenBranch : Node) :
    calls ⟨i, p, .ifElse c thenBranch none⟩ = c.calls ++ thenBranch.calls := by
  unfold calls
  rw [actions_ifElse_none, List.filterMap_append]

theorem calls_ifElse_some (i : Nat) (p : Position) (c thenBranch elseBranch : Node) :
    calls ⟨i, p, .ifElse c thenBranch (some elseBranch)⟩ =
      c.calls ++ elseBranch.calls ++ thenBranch.calls := by
  unfold calls
  rw [actions_ifElse_some, List.filterMap_append, List.filterMap_append]

/-- Calls are nodes of the tree. -/
theorem of_mem_calls {m : Node} (hm : m ∈ n.calls) : m ∈ n.preorder ∧ m.label = .call := by
  obtain ⟨c, hc, hm⟩ := List.mem_filterMap.mp hm
  unfold asCall? at hm
  split at hm
  · cases hm
    exact ⟨(mem_actions.mp hc).1, ‹_›⟩
  · cases hm

/-- There are no calls where no node is one. -/
theorem calls_eq_nil (h : ∀ m ∈ n.preorder, m.label ≠ .call) : n.calls = [] :=
  List.eq_nil_iff_forall_not_mem.mpr fun m hm => h m (of_mem_calls hm).1 (of_mem_calls hm).2

end Node

/-- A call in the source, as far as it decides on the instruction for it. -/
structure CallSite where
  method : String
  /-- The receiver is an instance of the class of the program. -/
  isLocal : Bool
  /-- The receiver is the name of an import. -/
  isImport : Bool
deriving DecidableEq, Repr

namespace Scope

variable (sc : Scope)

/-- The call that a node is. -/
def callSite? (n : Node) : Option CallSite :=
  match n.kind with
  | .call receiver method _ =>
    some ⟨method, sc.isLocalReceiver receiver, (sc.staticReceiver? receiver).isSome⟩
  | _ => none

/-- The calls in a tree, in the order in which the code for it has them. -/
def callSites (n : Node) : List CallSite := n.actions.filterMap sc.callSite?

theorem callSites_eq (n : Node) : sc.callSites n = n.calls.filterMap sc.callSite? := by
  have hcall (m : Node) : sc.callSite? m = m.asCall?.bind sc.callSite? := by
    obtain ⟨i, p, k⟩ := m
    cases k <;> rfl
  rw [Node.calls, List.filterMap_filterMap]
  exact List.filterMap_congr fun m _ => hcall m

end Scope

/-- The calls in a method. -/
def Node.callSites (t : SymbolTable) (m : Node) : List CallSite :=
  match m.kind with
  | .methodDecl head _ _ _ => (Scope.ofMethod t head).callSites m
  | _ => []

/-! ### Simplified trees -/

namespace Node

variable {t : SymbolTable} {sc : Scope} {n n' m m' : Node}

/-- **Simplifying neither adds nor removes calls.** -/
theorem Simplified.forall₂_calls (h : Simplified t (some sc) n n')
    (hmethods : ∀ m ∈ n.preorder, m.label ≠ .methodDecl) :
    List.Forall₂ (Simplified t (some sc)) n.calls n'.calls := by
  refine within (motive := fun n n' => List.Forall₂ (Simplified t (some sc)) n.calls n'.calls)
    (fun n c _ hcalls _ => ?_) (fun i p k hkept below => ?_) h hmethods
  · rw [calls_eq_nil hcalls, calls_eq_nil]
    · exact .nil
    · exact (Simplified.refl t none _).label_ne_call (literal?_become _ c)
  · have hsame {x : Node × Node} (hx : x ∈ k.children) := (below x hx).2.2
    have hflat {cs : List (Node × Node)} (hcs : ∀ x ∈ cs, x ∈ k.children) :
        List.Forall₂ (Simplified t (some sc)) ((cs.map Prod.fst).flatMap calls)
          ((cs.map Prod.snd).flatMap calls) := by
      rw [List.flatMap_map, List.flatMap_map]
      refine List.rel_flatten ?_
      rw [List.forall₂_map_left_iff, List.forall₂_map_right_iff, List.forall₂_same]
      exact fun x hx => hsame (hcs x hx)
    have hall (hlabel : [Label.call, .ifElse].contains k.label = false) :
        List.Forall₂ (Simplified t (some sc)) (calls ⟨i, p, k.map Prod.fst⟩)
          (calls ⟨i, p, k.map Prod.snd⟩) := by
      rw [calls_eq, calls_eq, children, children, Kind.children_map, Kind.children_map]
      · exact hflat fun _ hx => hx
      · rwa [label, Kind.label_map]
      · rwa [label, Kind.label_map]
    cases k with
    | call receiver method arguments =>
      simp only [Kind.map, calls_call]
      have harguments := hflat fun x (hx : x ∈ arguments) => List.mem_cons_of_mem _ hx
      exact List.rel_append (List.rel_append (hsame (x := receiver) List.mem_cons_self) harguments)
        (.cons hkept .nil)
    | ifElse c thenBranch elseBranch =>
      have hcond := hsame (x := c) List.mem_cons_self
      have hthen := hsame (x := thenBranch) mem_second
      cases elseBranch with
      | none =>
        simp only [Kind.map, Option.map_none, calls_ifElse_none]
        exact List.rel_append hcond hthen
      | some elseBranch =>
        have helse := hsame (x := elseBranch) mem_third
        simp only [Kind.map, Option.map_some, calls_ifElse_some]
        exact List.rel_append (List.rel_append hcond helse) hthen
    | _ => exact hall rfl

theorem calls_of_method {head : MethodHead} {params locals body : List Node}
    (hkind : m.kind = .methodDecl head params locals body) (hm : m.WellFormed) :
    m.calls = body.flatMap calls := by
  rw [flatMap_calls, ← actions_methodDecl hkind hm]
  rfl

/-- What can be said of calls in a scope whether they are simplified or not. -/
def Stays {β : Type} (t : SymbolTable) (sc : Scope) (f : Node → β) : Prop :=
  ∀ c c', Simplified t (some sc) c c' → c.WellFormed → c.label = .call → f c' = f c

/-- The receiver of a call that is simplified stays what it is. -/
theorem stays_of_receiver {β : Type} {f : Node → β}
    (h : ∀ i p receiver receiver' method arguments arguments',
      Simplified t (some sc) receiver receiver' → receiver.WellFormed →
      f ⟨i, p, .call receiver' method arguments'⟩ = f ⟨i, p, .call receiver method arguments⟩) :
    Stays t sc f := by
  intro c c' hsimplified hc hcall
  generalize haround : some sc = around at hsimplified
  cases hsimplified with
  | literal c hexpr hcalls => exact absurd hcall (hcalls _ (mem_preorder_self _))
  | @keep _ i p k below =>
    cases k with
    | call receiver method arguments =>
      subst haround
      exact h i p _ _ method _ _ (below receiver List.mem_cons_self)
        (hc.of_mem_children List.mem_cons_self)
    | _ => cases hcall

theorem stays_callSite? (t : SymbolTable) (sc : Scope) : Stays t sc sc.callSite? :=
  stays_of_receiver fun i p receiver receiver' method _ _ h hreceiver => by
    simp only [Scope.callSite?, h.alike.isLocalReceiver, h.staticReceiver?_eq hreceiver]

/-- A method has the same calls when it is simplified, apart from what is simplified in them. -/
theorem Reduces.forall₂_calls (h : Reduces t m m') {head : MethodHead}
    {params locals body : List Node} (hkind : m.kind = .methodDecl head params locals body) :
    List.Forall₂ (Simplified t (some (.ofMethod t head))) m.calls m'.calls := by
  obtain ⟨head', _, _, body, body', hkind', hkind'', happroves, happroves', hbody⟩ := h
  cases hkind.symm.trans hkind'
  rw [calls_of_method hkind happroves.wellFormed, calls_of_method hkind'' happroves'.wellFormed]
  refine List.rel_flatten ?_
  rw [List.forall₂_map_left_iff, List.forall₂_map_right_iff]
  refine ((List.forall₂_and_left _ _).mpr ⟨fun c hc => hc, hbody⟩).imp fun c c' ⟨hc, h⟩ => ?_
  exact h.forall₂_calls (happroves.statement hkind hc).2.2

/-- Of the calls of a method the same can be said when it is simplified. -/
theorem Reduces.map_calls (h : Reduces t m m') {head : MethodHead} {params locals body : List Node}
    (hkind : m.kind = .methodDecl head params locals body) (hm : m.WellFormed) {β : Type}
    {f : Node → β} (hf : Stays t (.ofMethod t head) f) : m'.calls.map f = m.calls.map f := by
  have hcalls := (List.forall₂_and_left _ _).mpr
    ⟨fun c hc => of_mem_calls hc, h.forall₂_calls hkind⟩
  have hmap : List.Forall₂ Eq (m.calls.map f) (m'.calls.map f) := by
    rw [List.forall₂_map_left_iff, List.forall₂_map_right_iff]
    exact hcalls.imp fun c c' ⟨⟨hmem, hcall⟩, h⟩ =>
      (hf c c' h (hm.of_mem_preorder hmem) hcall).symm
  rw [List.forall₂_eq_eq_eq] at hmap
  exact hmap.symm

theorem map_calls_of_reduces (h : Relation.ReflTransGen (Reduces t) m m') {head : MethodHead}
    {params locals body : List Node} (hkind : m.kind = .methodDecl head params locals body)
    (happroves : (Scope.ofMethod t head).Approves m) {β : Type} {f : Node → β}
    (hf : Stays t (.ofMethod t head) f) : m'.calls.map f = m.calls.map f := by
  induction h with
  | refl => rfl
  | tail hsteps hstep ih =>
    obtain ⟨body', hkind', happroves'⟩ := of_reduces hsteps hkind happroves
    exact (hstep.map_calls hkind' happroves'.wellFormed hf).trans ih

theorem callSites_of_method {head : MethodHead} {params locals body : List Node}
    (hkind : m.kind = .methodDecl head params locals body) :
    m.callSites t = m.calls.filterMap (Scope.ofMethod t head).callSite? := by
  rw [callSites, hkind]
  exact (Scope.ofMethod t head).callSites_eq m

end Node

/-! ## Calls in the code -/

namespace Jvm

/-- The instruction puts a variable or a constant on the stack. -/
def Instr.isLoad : Instr → Bool
  | const _ | load _ _ => true
  | _ => false

/-- An instruction that calls a method. -/
structure Invoked where
  invocation : Invocation
  method : MethodRef
  /-- How many instructions directly in front of it put a variable or a constant on the stack. -/
  loaded : Nat
deriving DecidableEq, Repr

/-- The instructions that call methods, but no constructors, if so many loads are in front. -/
def invokedBehind (loaded : Nat) : List Instr → List Invoked
  | [] => []
  | .invoke .special _ _ :: is => invokedBehind 0 is
  | .invoke invocation method _ :: is => ⟨invocation, method, loaded⟩ :: invokedBehind 0 is
  | i :: is => invokedBehind (if i.isLoad then loaded + 1 else 0) is

/-- The instructions of a method that call methods. -/
def EmittedMethod.calls (e : EmittedMethod) : List Invoked := invokedBehind 0 e.code

/-- The instruction for a call. -/
def ClassNames.invoked (cs : ClassNames) (c : Call) : Invoked :=
  ⟨c.invocation, ⟨cs.owner c.target.type, c.method, cs.methodType c.signature c.returnType⟩,
    c.operands.length⟩

/-- The instruction for a call among the actions. -/
def ClassNames.invoked? (cs : ClassNames) : Action → Option Invoked
  | .call c => some (cs.invoked c)
  | .ret _ => none

namespace Frame

variable {fr : Frame} {n : Nat} {loaded : Nat} {rest : List Instr}

theorem invokedBehind_loading (os : List Operand) :
    invokedBehind loaded (os.map fr.loading ++ rest) = invokedBehind (loaded + os.length) rest := by
  induction os generalizing loaded with
  | nil => rfl
  | cons o os ih =>
    have hload : invokedBehind loaded (fr.loading o :: (os.map fr.loading ++ rest)) =
        invokedBehind (loaded + 1) (os.map fr.loading ++ rest) := by
      cases o <;> rfl
    rw [List.map_cons, List.cons_append, hload, ih, List.length_cons, Nat.add_right_comm]
    rfl

/-- Behind a block no loads are left. -/
theorem invokedBehind_block (i : Ir.Instr) : invokedBehind 0 (fr.block n i ++ rest) =
    (i.action?.bind fr.classes.invoked?).toList ++ invokedBehind 0 rest := by
  have hinvoking (c : Call) (rest : List Instr) :
      invokedBehind c.operands.length (fr.invoking c :: rest) =
        ((Ir.Instr.call c).action?.bind fr.classes.invoked?).toList ++ invokedBehind 0 rest := by
    obtain ⟨invocation, target, method, arguments, returnType, paramTypes⟩ := c
    cases invocation <;> rfl
  have hcompare (c : Comparison) (k l : Nat) (v : Var) :
      invokedBehind l (comparing c k ++ [fr.storing v] ++ rest) = invokedBehind 0 rest := rfl
  rw [block, List.append_assoc, invokedBehind_loading, Nat.zero_add]
  cases i with
  | assign dest value =>
    cases value with
    | call c => exact hinvoking c (fr.storing dest :: rest)
    | binary op left right => cases op <;> rfl
    | _ => rfl
  | call c =>
    rw [finishing]
    split
    · exact hinvoking c rest
    · exact hinvoking c (.pop :: rest)
  | ret value => cases value <;> rfl
  | _ => rfl

/-- **The code for a row of instructions calls what they call.** -/
theorem invokedBehind_blocks (code : Code) : invokedBehind 0 (fr.blocks n code).flatten =
    (actions code).filterMap fr.classes.invoked? := by
  induction code generalizing n with
  | nil => rfl
  | cons i is ih =>
    rw [blocks, List.flatten_cons, invokedBehind_block, ih, actions_cons, List.filterMap_append]
    cases i.action? with
    | none => rfl
    | some a => cases a <;> rfl

end Frame

theorem calls_emitted (classes : ClassNames) (m : Method) :
    (emitted classes m).calls = (actions m.code).filterMap classes.invoked? :=
  Frame.invokedBehind_blocks m.code

/-! ## Calls of lowered methods -/

/-- The instruction is for the call. What it names of a method of the class is what the symbol table
has. -/
structure Serves (t : SymbolTable) (cs : ClassNames) (site : CallSite) (call : Invoked) : Prop where
  name : call.method.name = site.method
  invocation : call.invocation = if site.isImport then .static else .virtual
  owner : site.isLocal = true → call.method.owner = cs.classPath t.className
  params : site.isLocal = true → ∀ ps, t.params? site.method = some ps →
    call.method.type.params = ps.map (fun p => cs.jtype (.ofTy p.type)) ∧
      call.loaded = (if call.invocation = .static then 0 else 1) + ps.length
  result : site.isLocal = true → ∀ r, t.returnType? site.method = some r →
    call.method.type.result = cs.jtype (.ofTy r)

/-- The header of the method says what the symbol table has, apart from the result of `main`. -/
structure Declares (t : SymbolTable) (cs : ClassNames) (e : EmittedMethod) : Prop where
  isStatic : e.isStatic = true ↔ e.name = "main"
  params : ∃ ps, t.params? e.name = some ps ∧
    e.type.params = ps.map fun p => cs.jtype (.ofTy p.type)
  result : e.name ≠ "main" → ∃ r, t.returnType? e.name = some r ∧
    e.type.result = cs.jtype (.ofTy r)

/-- The instruction for a call serves it. -/
theorem Serves.invoked {sc : Scope} {cs : ClassNames} {receiver : Node} {method : String} {c : Call}
    (h : sc.Calls receiver method c) : Serves sc.table cs
      ⟨method, sc.isLocalReceiver receiver, (sc.staticReceiver? receiver).isSome⟩
      (cs.invoked c) where
  name := h.name
  invocation := h.invocation
  owner hlocal := congrArg cs.owner (h.target hlocal)
  params hlocal ps hps := by
    obtain ⟨hparams, hlength⟩ := h.params hlocal ps hps
    refine ⟨?_, ?_⟩
    · change (c.signature.map cs.jtype) = _
      rw [Call.signature, hparams, Option.getD_some, List.map_map]
      rfl
    · change c.operands.length = (if c.invocation = .static then 0 else 1) + ps.length
      rw [Call.operands, List.length_append, hlength]
      split <;> rfl
  result hlocal r hr := congrArg cs.jtype (h.result hlocal r hr)

/-- The instruction stands for the call that the node is. -/
inductive Enacts (sc : Scope) (cs : ClassNames) : Node → Invoked → Prop
  | call {i : Nat} {p : Position} {receiver : Node} {method : String} {arguments : List Node}
      {c : Call} (h : sc.Calls receiver method c) :
      Enacts sc cs ⟨i, p, .call receiver method arguments⟩ (cs.invoked c)

theorem Enacts.of_acts {sc : Scope} {cs : ClassNames} {n : Node} {a : Action} (h : sc.Acts n a) :
    Option.Rel (Enacts sc cs) n.asCall? (cs.invoked? a) := by
  cases h with
  | call h => exact .some (.call h)
  | ret => exact .none
  | retValue => exact .none

theorem Enacts.serves {sc : Scope} {cs : ClassNames} {n : Node} {call : Invoked}
    (h : Enacts sc cs n call) :
    Option.Rel (Serves sc.table cs) (sc.callSite? n) (some call) := by
  cases h with
  | call h => exact .some (.invoked h)

section Method

variable {t : SymbolTable} (cs : ClassNames) {n : Node} {head : MethodHead}
  {params locals body : List Node} {m : Method} {s s' : Supply}

/-- **The code of a method that passes all checks has an instruction for each of its calls.** -/
theorem forall₂_enacts (hclass : IsIdentifier t.className)
    (hrows : (Scope.ofMethod t head).TakesRowsInArrays)
    (hkind : n.kind = .methodDecl head params locals body)
    (h : (Scope.ofMethod t head).Approves n)
    (hm : (lowerMethod (Scope.ofMethod t) n).run s = .ok (m, s')) :
    List.Forall₂ (Enacts (.ofMethod t head) cs) n.calls (emitted cs m).calls := by
  obtain ⟨as, hacts, has⟩ := lowerMethod_acts hclass hrows hkind h hm
  have hcalls : (emitted cs m).calls = as.filterMap cs.invoked? := by
    rw [calls_emitted]
    rcases has with has | ⟨has, -⟩
    · rw [has]
    · rw [has, List.filterMap_append]
      exact List.append_nil _
  rw [hcalls]
  exact List.rel_filterMap (fun _ _ h => Enacts.of_acts h) hacts

theorem forall₂_serves (hclass : IsIdentifier t.className)
    (hrows : (Scope.ofMethod t head).TakesRowsInArrays)
    (hkind : n.kind = .methodDecl head params locals body)
    (h : (Scope.ofMethod t head).Approves n)
    (hm : (lowerMethod (Scope.ofMethod t) n).run s = .ok (m, s')) :
    List.Forall₂ (Serves t cs) (n.callSites t) (emitted cs m).calls := by
  have hserves := List.rel_filterMap (fun _ _ h => Enacts.serves h)
    (forall₂_enacts cs hclass hrows hkind h hm)
  rwa [List.filterMap_some, ← Node.callSites_of_method hkind] at hserves

end Method

end Jvm

/-! ## Programs -/

variable {source : String} {root : Node} {table : SymbolTable} {options : CompileOptions}
  {compiled : Compiled}

/-- Where a method passes all checks, it is static exactly if it is `main`. -/
theorem Scope.Approves.isStatic_iff {sc : Scope} {n : Node} {head : MethodHead}
    {params locals body : List Node} (h : sc.Approves n)
    (hkind : n.kind = .methodDecl head params locals body) :
    head.isStatic = true ↔ head.name = "main" := by
  have hcheck := h.structuredHere
  simp only [checkStructureAt, hkind, List.append_eq_nil_iff] at hcheck
  obtain ⟨⟨⟨hstatic, -⟩, -⟩, -⟩ := hcheck
  by_cases hmain : head.name = "main" <;> cases hs : head.isStatic <;> simp_all

namespace Jvm

/-- The header of a method declares what the symbol table has. -/
theorem declares_emitted (h : Accepted source root table) (cs : ClassNames) {n n' : Node}
    {head : MethodHead} {params locals body body' : List Node} {m : Method} {s s' : Supply}
    (hn : n ∈ root.methods) (hkind : n.kind = .methodDecl head params locals body)
    (hkind' : n'.kind = .methodDecl head params locals body')
    (happroves : (Scope.ofMethod table head).Approves n')
    (hm : (lowerMethod (Scope.ofMethod table) n').run s = .ok (m, s')) :
    m.name = head.name ∧ Declares table cs (emitted cs m) := by
  obtain ⟨_, _, _, _, _, heq, -, hname, hstatic, hparams, -⟩ := lowerMethod_eq_ok hm
  cases hkind'.symm.trans heq
  obtain ⟨_, _, _, _, _, heq, -, hresult, -⟩ := lowerMethod_shape hm
  cases hkind'.symm.trans heq
  refine ⟨hname, ?_, ⟨params.filterMap SymbolTable.declared?, ?_, ?_⟩,
    fun hmain => ⟨.ofExpr head.returnType, ?_, ?_⟩⟩
  · change m.isStatic = true ↔ m.name = "main"
    rw [hname, hstatic]
    exact happroves.isStatic_iff hkind'
  · exact (congrArg table.params? hname).trans (h.params?_eq hn hkind).1
  · change ((m.params.map Var.type).map cs.jtype) = _
    rw [hparams, List.map_map, List.map_map]
    rfl
  · refine (congrArg table.returnType? hname).trans ((h.returnType?_eq hn hkind).trans ?_)
    rw [if_neg (hname ▸ hmain)]
  · exact congrArg cs.jtype hresult

/-- **The assembly of an accepted program has the methods of the program, with their headers and
their calls.** -/
theorem exists_methods_of_compile (h : Accepted source root table)
    (hcompile : compile options source = .ok compiled) :
    ∃ cs es, cs.classPath table.className = table.className ∧ IsAssembly compiled.assembly es ∧
      List.Forall₂ (fun n e => n.kind.declaredName? = some e.name ∧ Declares table cs e ∧
        List.Forall₂ (Serves table cs) (n.callSites table) e.calls) root.methods es := by
  obtain ⟨root', hroot', unit, hlower, text, htext, rfl⟩ := h.compile_eq_ok.mp hcompile
  have hname := (unit_eq_of_lower hlower).1
  refine ⟨.ofUnit unit, unit.methods.map (emitted (.ofUnit unit)), ?_,
    isAssembly_of_assemble htext, ?_⟩
  · unfold ClassNames.classPath
    exact if_pos hname.symm
  rw [List.forall₂_map_right_iff]
  refine (h.forall₂_lowered hroot' hlower).imp fun n m ⟨hn, n', hsteps, s, s', hm⟩ => ?_
  obtain ⟨head, params, locals, body, hkind, happroves⟩ := h.approves hn
  obtain ⟨body', hkind', happroves'⟩ := Node.of_reduces hsteps hkind happroves
  obtain ⟨hname, hdeclares⟩ := declares_emitted h (.ofUnit unit) hn hkind hkind' happroves' hm
  refine ⟨?_, hdeclares, ?_⟩
  · rw [hkind]
    exact congrArg some hname.symm
  · have hsites : n'.callSites table = n.callSites table := by
      have hmap := congrArg (List.filterMap id)
        (Node.map_calls_of_reduces hsteps hkind happroves (Node.stays_callSite? table _))
      rw [List.filterMap_map, List.filterMap_map] at hmap
      rw [Node.callSites_of_method hkind', Node.callSites_of_method hkind]
      exact hmap
    rw [← hsites]
    exact forall₂_serves _ h.isIdentifier_className (fun _ => h.isArray_of_isVarargs) hkind'
      happroves' hm

/-- The call is static exactly if the method is. -/
def Invoked.FitsCallee (call : Invoked) (e : EmittedMethod) : Prop :=
  call.invocation = if e.isStatic then .static else .virtual

end Jvm

open Jvm

/-! ### Agreement with headers -/

/-- **Which calls are static**: those on the names of imports, whether the program is optimized or
not. So a call of a method of the class fits it exactly if the receiver is the name of an import and
the method is `main`, or neither. -/
theorem invocations_of_compile (h : Accepted source root table)
    (hcompile : compile options source = .ok compiled) :
    ∃ es, IsAssembly compiled.assembly es ∧
      List.Forall₂ (fun n e => n.kind.declaredName? = some e.name ∧
        List.Forall₂ (fun site call => call.method.name = site.method ∧
          call.invocation = (if site.isImport then .static else .virtual) ∧
          ∀ e' ∈ es, call.method.owner = table.className → e'.name = call.method.name →
            (call.FitsCallee e' ↔ (site.isImport = true ↔ e'.name = "main")))
          (n.callSites table) e.calls) root.methods es := by
  obtain ⟨cs, es, -, htext, hmethods⟩ := exists_methods_of_compile h hcompile
  refine ⟨es, htext, hmethods.imp fun n e ⟨hname, _, hserves⟩ => ⟨hname, hserves.imp
    fun site call hserves => ⟨hserves.name, hserves.invocation, fun e' he' _ _ => ?_⟩⟩⟩
  obtain ⟨_, -, -, hdeclares, -⟩ := exists_of_forall₂ hmethods he'
  unfold Invoked.FitsCallee
  rw [hserves.invocation, ← hdeclares.isStatic]
  cases site.isImport <;> cases e'.isStatic <;> decide

/-- A call on an instance, and one on the name of an import that is that of the class as well. -/
theorem invocations_of_compile_import : ∃ root table compiled,
    Accepted "import A;class A{static void main(String[] a){}int g(String[] a){A.main(a);return this.g(a);}}"
      root table ∧
    compile {} "import A;class A{static void main(String[] a){}int g(String[] a){A.main(a);return this.g(a);}}" =
      .ok compiled ∧
    ∃ es, IsAssembly compiled.assembly es ∧
      List.Forall₂ (fun n e => n.kind.declaredName? = some e.name ∧
        List.Forall₂ (fun site call => call.method.name = site.method ∧
          call.invocation = (if site.isImport then .static else .virtual) ∧
          ∀ e' ∈ es, call.method.owner = table.className → e'.name = call.method.name →
            (call.FitsCallee e' ↔ (site.isImport = true ↔ e'.name = "main")))
          (n.callSites table) e.calls) root.methods es := by
  obtain ⟨root, table, h, hp⟩ := Accepted.exists_of_any
    "import A;class A{static void main(String[] a){}int g(String[] a){A.main(a);return this.g(a);}}"
    (fun root table => match lower table root with
      | .ok unit => unit.methods.all fun m => m.code.all Ir.Instr.hasBlock
      | .error _ => false)
    (by decide +kernel)
  split at hp
  · rename_i unit hlower
    obtain ⟨compiled, hcompile, -⟩ := h.exists_compile_eq_ok hlower hp
    exact ⟨root, table, compiled, h, hcompile, invocations_of_compile h hcompile⟩
  · cases hp

/-- `main` may be called on an instance, which makes no static call of it. -/
theorem not_fits_main : ∃ root table compiled,
    Accepted "class A{static void main(String[] a){}void f(String[] a){this.main(a);}}" root table ∧
    compile {} "class A{static void main(String[] a){}void f(String[] a){this.main(a);}}" =
      .ok compiled ∧
    ¬∀ es, IsAssembly compiled.assembly es → ∀ e ∈ es, ∀ call ∈ e.calls,
      call.method.owner = table.className → ∀ e' ∈ es, e'.name = call.method.name →
        call.FitsCallee e' := by
  obtain ⟨root, table, h, hp⟩ := Accepted.exists_of_any
    "class A{static void main(String[] a){}void f(String[] a){this.main(a);}}"
    (fun root table => match lower table root with
      | .ok unit =>
        (unit.methods.all fun m => m.code.all Ir.Instr.hasBlock) &&
          let es := unit.methods.map (emitted (.ofUnit unit))
          es.any fun e => e.calls.any fun call => call.method.owner = table.className &&
            call.invocation = .virtual && es.any fun e' => e'.name = call.method.name && e'.isStatic
      | .error _ => false)
    (by decide +kernel)
  split at hp
  · rename_i unit hlower
    obtain ⟨hblocks, hp⟩ := (Bool.and_eq_true _ _).mp hp
    obtain ⟨compiled, hcompile, htext⟩ := h.exists_compile_eq_ok hlower hblocks
    refine ⟨root, table, compiled, h, hcompile, fun hfits => ?_⟩
    simp only [List.any_eq_true, Bool.and_eq_true, decide_eq_true_eq] at hp
    obtain ⟨e, he, call, hcall, ⟨howner, hvirtual⟩, e', he', hname, hstatic⟩ := hp
    have hfits := hfits _ htext e he call hcall howner e' he' hname
    rw [Invoked.FitsCallee, hvirtual, hstatic] at hfits
    cases hfits
  · cases hp

end MiniJava
