import MiniJava.Proofs.Lowering.Actions
import MiniJava.Proofs.Semantics.ThreeAddress
import MiniJava.Proofs.Typing.Sites

/-!
# What lowered code mentions

Besides variables and labels, code mentions methods with their types, fields, and the sizes of new
arrays. All this comes from the source: the code of a method mentions exactly what its sites ask for
(`lowerMethod_mentions`). What a single site asks for is `Scope.mentionsAt`. It is the call
that a node is, the field that a name means, the array that is made for a row of values; the types
are those that the checks find, with what is demanded of the site.

So a property of all calls, fields or new arrays in the code of a program is one of its sites.
-/

namespace MiniJava

open Ir

/-! ## Mentions in code -/

namespace Ir

/-- What an instruction mentions besides variables and labels. -/
inductive Mention where
  /-- A method is called. -/
  | call (callee : Callee)
  /-- A field is read or written. -/
  | field (field : Var)
  /-- An array is made, with a size of this type. -/
  | newArray (size : IrType)
deriving DecidableEq

/-- What the computation of a value mentions. -/
def Rhs.mention? : Rhs → Option Mention
  | call c => some (.call c.callee)
  | getField _ field => some (.field field)
  | newArray size _ => some (.newArray size.type)
  | _ => none

/-- What an instruction mentions. -/
def Instr.mention? : Instr → Option Mention
  | assign _ value => value.mention?
  | putField _ field _ => some (.field field)
  | call c => some (.call c.callee)
  | _ => none

/-- What code mentions, in the order of its instructions. -/
def mentions (code : Code) : List Mention := code.filterMap Instr.mention?

variable {p q : Code} {i : Instr} {ms ms' : List Mention}

@[simp] theorem mentions_nil : mentions [] = [] := rfl

@[simp] theorem mentions_append (p q : Code) : mentions (p ++ q) = mentions p ++ mentions q :=
  List.filterMap_append

@[simp] theorem mentions_cons (i : Instr) (p : Code) :
    mentions (i :: p) = i.mention?.toList ++ mentions p := by
  unfold mentions
  rw [List.filterMap_cons]
  cases i.mention? <;> rfl

/-- The code mentions just what is listed, in any order. -/
def Mentions (ms : List Mention) (code : Code) : Prop := ∀ x, x ∈ mentions code ↔ x ∈ ms

namespace Mentions

protected theorem nil : Mentions [] [] := fun _ => .rfl

protected theorem append (hp : Mentions ms p) (hq : Mentions ms' q) :
    Mentions (ms ++ ms') (p ++ q) := fun x => by
  rw [mentions_append, List.mem_append, List.mem_append, hp x, hq x]

/-- The order of what is listed does not matter. -/
theorem of_mem (hp : Mentions ms p) (h : ∀ x, x ∈ ms ↔ x ∈ ms') : Mentions ms' p :=
  fun x => (hp x).trans (h x)

/-- Code that mentions nothing may be added behind. -/
theorem concat (hp : Mentions ms p) (hq : mentions q = []) : Mentions ms (p ++ q) := fun x => by
  rw [mentions_append, hq, List.append_nil, hp x]

/-- Code that mentions nothing may be added in front. -/
theorem behind (hq : Mentions ms q) (hp : mentions p = []) : Mentions ms (p ++ q) := fun x => by
  rw [mentions_append, hp, List.nil_append, hq x]

/-- An instruction adds what it mentions. -/
theorem concat_instr (hp : Mentions ms p) (i : Instr) :
    Mentions (i.mention?.toList ++ ms) (p ++ [i]) := fun x => by
  simp only [mentions_append, mentions_cons, mentions_nil, List.append_nil, List.mem_append, hp x,
    or_comm]

end Mentions

namespace Lower

variable {x y : Lower Value} {xs : List (Lower Value)} {mss : List (List Mention)}

/-- The code of a value mentions just what is listed. -/
abbrev MentionsAs (ms : List Mention) (x : Lower Value) : Prop :=
  Yields x (fun v => Mentions ms v.code) fun _ => True

theorem assignTemp_mentions {code : Code} (hcode : Mentions ms code) (rhs : Rhs) :
    MentionsAs (rhs.mention?.toList ++ ms) (assignTemp code rhs) :=
  .seq fun dest => .pure (hcode.concat_instr (.assign dest rhs))

theorem toVar_mentions {v : Value} (hv : Mentions ms v.code) :
    Yields (toVar v) (fun a => Mentions ms a.2) fun _ => True := by
  unfold toVar
  split
  · exact .pure hv
  · exact .seq fun dest => .pure (hv.concat rfl)

theorem inOrder_mentions (h : List.Forall₂ MentionsAs mss xs) :
    Yields (inOrder xs) (fun a => Mentions mss.flatten a.2) fun _ => True := by
  induction h with
  | nil => exact .pure .nil
  | cons hx _ ih => exact hx.bind fun v hv => ih.bind fun a ha => .pure (hv.append ha)

theorem storeFrom_mentions (array : Var) (index : Nat) (h : List.Forall₂ MentionsAs mss xs) :
    Yields (storeFrom array index xs) (Mentions mss.flatten) fun _ => True := by
  induction h generalizing index with
  | nil => exact .pure .nil
  | cons hx _ ih =>
    refine hx.bind fun v hv => (ih (index + 1)).bind fun code hcode => .pure (hv.append ?_)
    exact hcode.behind (p := [_]) rfl

/-- The size of an array for a row of values is an integer. -/
theorem packArray_mentions (t : IrType) (h : List.Forall₂ MentionsAs mss xs) :
    Yields (packArray t xs) (fun a => Mentions (.newArray .int32 :: mss.flatten) a.2)
      fun _ => True :=
  .seq fun array => (storeFrom_mentions array 0 h).bind fun code hcode => .pure fun x => by
    simp only [mentions_cons, List.mem_append, List.mem_cons, hcode x]
    simp [Instr.mention?, Rhs.mention?, Operand.int, Operand.type]

theorem logical_mentions {k : LabelKind} {code : Nat → Var → Value → Value → Code}
    (hx : MentionsAs ms x) (hy : MentionsAs ms' y)
    (hcode : ∀ n result a b, mentions (code n result a b) = mentions a.code ++ mentions b.code) :
    MentionsAs (ms ++ ms') (do
      let n ← label k
      let result ← temp .boolean
      let a ← x
      let b ← y
      return ⟨.var result, code n result a b⟩) :=
  .seq fun n => .seq fun result => hx.bind fun a ha => hy.bind fun b hb => .pure fun z => by
    rw [hcode, List.mem_append, List.mem_append, ha z, hb z]

theorem binary_mentions (op : BinaryOp) (hx : MentionsAs ms x) (hy : MentionsAs ms' y) :
    MentionsAs (ms ++ ms') (binary op x y) := by
  have hvalue (op' : BinOp) : MentionsAs (ms ++ ms') (do
      let a ← x
      let b ← y
      assignTemp (a.code ++ b.code) (.binary op' a.operand b.operand)) :=
    hx.bind fun a ha => hy.bind fun b hb => assignTemp_mentions (ha.append hb) _
  cases op with
  | and =>
    refine logical_mentions (k := .and) hx hy fun n result a b => ?_
    simp [Instr.mention?, Rhs.mention?]
  | or =>
    refine logical_mentions (k := .or) hx hy fun n result a b => ?_
    simp [Instr.mention?, Rhs.mention?]
  | _ => exact hvalue _

/-- The types of the operands are those of the values. -/
theorem inOrder_typed {ts : List IrType} {E : LoweringError → Prop}
    (h : List.Forall₂ (fun t x => Typed x t E) ts xs) :
    Yields (inOrder xs) (fun a => a.1.map Operand.type = ts) E := by
  induction h with
  | nil => exact .pure rfl
  | cons hx _ ih =>
    refine hx.bind fun v hv => ih.bind fun a ha => .pure ?_
    rw [List.map_cons, hv, ha]

end Lower

end Ir

/-! ## Mentions at sites -/

namespace Scope

variable (sc : Scope)

/-- The types of the parameters with which a method is called: those that it is declared with, or
else those of the arguments. -/
def signatureTypes (receiver : Node) (method : String) (arguments : List Node) : List Ty :=
  match if sc.isLocalReceiver receiver then sc.table.params? method else none with
  | some params => params.map Variable.type
  | none => (sc.argumentTypes receiver method arguments).map (·.getD .int)

/-- The type of the result with which a call is made, of which `demand` is asked. -/
def resultType (demand : Ty) (n : Node) : Ty := (sc.typeOf? demand n).getD demand

/-- What the instruction for a call says of the method. -/
def callee (receiver : Node) (method : String) (arguments : List Node) (result : Ty) : Callee where
  invocation := if (sc.staticReceiver? receiver).isSome then .static else .virtual
  owner := .ofTy ((sc.typeOf? .object receiver).getD .object)
  method
  signature := (sc.signatureTypes receiver method arguments).map .ofTy
  result := .ofTy result

/-- The field that a name means. -/
def fieldMention (name : String) : List Mention :=
  match sc.lookup? name with
  | some (.field t) => [.field ⟨name, .ofTy t⟩]
  | _ => []

/-- What the code for a node mentions besides what that for its children does. -/
def mentionsAt (demand : Ty) (n : Node) : List Mention :=
  match n.kind with
  | .varRef name | .assign name _ | .arrayAssign name _ _ => sc.fieldMention name
  | .newObject className => [.call ⟨.special, .classRef className, "<init>", [], .void⟩]
  | .newArray _ size => [.newArray (.ofTy ((sc.typeOf? .int size).getD .int))]
  | .arrayLit _ => [.newArray .int32]
  | .call receiver method arguments =>
    .call (sc.callee receiver method arguments (sc.resultType demand n)) ::
      if (sc.packing? receiver method arguments).isSome then [.newArray .int32] else []
  | _ => []

/-- What the code for a tree mentions, of which `demand` is asked. -/
def mentions (demand : Ty) (n : Node) : List Mention :=
  (sitesWithin sc.table n (some sc) demand).flatMap fun s => s.scope.mentionsAt s.demand s.node

/-- All that a node of which `demand` is asked may ask for. -/
inductive AsksFor (demand : Ty) (n : Node) : Mention → Prop where
  | field {name : String} {t : Ty} (h : sc.lookup? name = some (.field t)) :
    AsksFor demand n (.field ⟨name, .ofTy t⟩)
  /-- The constructor of a new object. -/
  | construct (className : String) :
    AsksFor demand n (.call ⟨.special, .classRef className, "<init>", [], .void⟩)
  | newArray {element : TypeExpr} {size : Node} (h : n.kind = .newArray element size) :
    AsksFor demand n (.newArray (.ofTy ((sc.typeOf? .int size).getD .int)))
  /-- An array for the elements of a literal or for arguments that are packed. -/
  | row : AsksFor demand n (.newArray .int32)
  | call {receiver : Node} {method : String} {arguments : List Node}
    (h : n.kind = .call receiver method arguments) :
    AsksFor demand n (.call (sc.callee receiver method arguments (sc.resultType demand n)))

variable {sc} {n : Node}

theorem asksFor_of_mem_mentionsAt {d : Ty} {x : Mention} (hx : x ∈ sc.mentionsAt d n) :
    sc.AsksFor d n x := by
  have hfield (name : String) (hx : x ∈ sc.fieldMention name) : sc.AsksFor d n x := by
    unfold fieldMention at hx
    split at hx
    · rename_i t ht
      rw [List.mem_singleton.mp hx]
      exact .field ht
    · cases hx
  obtain ⟨i, p, k⟩ := n
  cases k with
  | varRef name | assign name | arrayAssign name => exact hfield name hx
  | newObject className =>
    rw [List.mem_singleton.mp hx]
    exact .construct className
  | newArray element size =>
    rw [List.mem_singleton.mp hx]
    exact .newArray rfl
  | arrayLit =>
    rw [List.mem_singleton.mp hx]
    exact .row
  | call receiver method arguments =>
    rcases List.mem_cons.mp hx with rfl | hx
    · exact .call rfl
    · split at hx
      · rw [List.mem_singleton.mp hx]
        exact .row
      · cases hx
  | _ => cases hx

theorem mentions_of_scopeWithin (h : n.scopeWithin sc.table (some sc) = some sc) (d : Ty) :
    sc.mentions d n = sc.mentionsAt d n ++
      (n.children.zip (sc.demands d n)).flatMap fun (c, d') => sc.mentions d' c := by
  unfold mentions
  rw [sitesWithin_eq, h]
  simp only [List.flatMap_cons, List.flatMap_assoc]

theorem mentions_eq (h : n.label ≠ .methodDecl) (d : Ty) : sc.mentions d n = sc.mentionsAt d n ++
    (n.children.zip (sc.demands d n)).flatMap fun (c, d') => sc.mentions d' c :=
  mentions_of_scopeWithin (n.scopeWithin_of_not_method _ _ h) d

/-- What some nodes mention of which the same is demanded. -/
theorem flatMap_mentions_zip (sc : Scope) (ns : List Node) (d : Ty) :
    ((ns.zip (ns.map fun _ => d)).flatMap fun (c, d') => sc.mentions d' c) =
      ns.flatMap (sc.mentions d) := by
  rw [List.zip_map_right, List.flatMap_map, List.zip_eq_zipWith, List.zipWith_self,
    List.flatMap_map]
  rfl

/-- What a node with one child mentions. -/
theorem mentions_of_single {d d' : Ty} {c : Node} (h : n.label ≠ .methodDecl)
    (hchildren : n.children = [c]) (hdemands : sc.demands d n = [d']) :
    sc.mentions d n = sc.mentionsAt d n ++ sc.mentions d' c := by
  rw [mentions_eq h, hchildren, hdemands]
  simp

/-- What a node with two children mentions. -/
theorem mentions_of_two {d d₁ d₂ : Ty} {a b : Node} (h : n.label ≠ .methodDecl)
    (hchildren : n.children = [a, b]) (hdemands : sc.demands d n = [d₁, d₂]) :
    sc.mentions d n = sc.mentionsAt d n ++ (sc.mentions d₁ a ++ sc.mentions d₂ b) := by
  rw [mentions_eq h, hchildren, hdemands]
  simp

/-! ### Calls -/

open Lower

theorem lowerName_mentions (name : String) (p : Position) :
    MentionsAs (sc.fieldMention name) (sc.lowerName name p) := by
  unfold lowerName fieldMention
  cases sc.lookup? name with
  | none => exact .throw trivial
  | some b =>
    cases b with
    | field t => exact assignTemp_mentions .nil (.getField sc.thisOperand ⟨name, .ofTy t⟩)
    | _ => exact .pure .nil

/-- What the code for several expressions mentions, of which `ds` are asked. -/
def mentionsEach (sc : Scope) (ds : List Ty) (ns : List Node) : List (List Mention) :=
  (ns.zip ds).map fun (n, d) => sc.mentions d n

theorem lowerEach_mentions {ns : List Node}
    (h : ∀ n ∈ ns, ∀ d, MentionsAs (sc.mentions d n) (sc.lowerExpr d n)) {ds : List Ty}
    (hds : ds.length = ns.length) :
    List.Forall₂ MentionsAs (sc.mentionsEach ds ns) (sc.lowerEach ds ns) := by
  induction ns generalizing ds with
  | nil => exact .nil
  | cons n ns ih =>
    obtain ⟨hn, hns⟩ := List.forall_mem_cons.mp h
    cases ds with
    | nil => cases hds
    | cons d ds => exact .cons (hn d) (ih hns (Nat.succ.inj hds))

theorem lowerArguments_mentions (receiver : Node) (method : String) (arguments : List Node)
    {values : List (Lower Value)} {mss : List (List Mention)}
    (h : List.Forall₂ MentionsAs mss values) :
    Yields (sc.lowerArguments receiver method arguments values)
      (fun a => Mentions ((if (sc.packing? receiver method arguments).isSome then
        [.newArray .int32] else []) ++ mss.flatten) a.2) fun _ => True := by
  rw [lowerArguments_eq]
  split
  · rename_i k t hpacking
    rw [hpacking, Option.isSome_some, if_pos rfl]
    refine (inOrder_mentions (List.forall₂_take k h)).bind fun a ha => ?_
    refine (packArray_mentions t (List.forall₂_drop k h)).bind fun b hb => .pure ?_
    refine (ha.append hb).of_mem fun x => ?_
    rw [← List.take_append_drop k mss, List.flatten_append]
    simp only [List.mem_append, List.mem_cons, List.take_append_drop]
    tauto
  · rename_i hpacking
    rw [hpacking]
    exact inOrder_mentions h

/-- The arguments that are not packed have their types. -/
theorem lowerArguments_typed {receiver : Node} {method : String} {arguments : List Node}
    (hpacking : sc.packing? receiver method arguments = none) {values : List (Lower Value)}
    {ts : List IrType} {E : LoweringError → Prop}
    (h : List.Forall₂ (fun t x => Lower.Typed x t E) ts values) :
    Yields (sc.lowerArguments receiver method arguments values)
      (fun a => a.1.map Operand.type = ts) E := by
  rw [lowerArguments_eq, hpacking]
  exact inOrder_typed h

/-- The name of an import is mentioned only in calls. -/
theorem mentions_of_staticReceiver? {receiver : Node} {name : String}
    (h : sc.staticReceiver? receiver = some name) (d : Ty) : sc.mentions d receiver = [] := by
  obtain ⟨i, p, k⟩ := receiver
  cases k with
  | varRef x =>
    have hfield : sc.fieldMention x = [] := by
      simp only [staticReceiver?] at h
      split at h
      · rename_i path hpath
        rw [fieldMention, hpath]
      · cases h
    rw [mentions_eq (n := ⟨i, p, .varRef x⟩) (Node.IsExpr.not_method rfl)]
    exact (List.append_nil _).trans hfield
  | _ => cases h

/-- The receiver and the arguments of a call are computed in front of it. -/
theorem lowerCall_mentions (t : IrType) (receiver : Node) (method : String)
    (arguments : List Node) {target : Lower Value} {values : List (Lower Value)}
    {mss : List (List Mention)} (htarget : MentionsAs (sc.mentions .object receiver) target)
    (h : List.Forall₂ MentionsAs mss values) :
    Yields (sc.lowerCall t receiver method arguments target values)
      (fun a => Mentions (sc.mentions .object receiver ++
        ((if (sc.packing? receiver method arguments).isSome then [.newArray .int32] else []) ++
          mss.flatten)) a.2) fun _ => True := by
  have harguments := sc.lowerArguments_mentions receiver method arguments h
  unfold lowerCall
  cases hname : sc.staticReceiver? receiver with
  | some name =>
    simp only [pure_bind]
    refine harguments.bind fun a ha => .pure ?_
    rw [mentions_of_staticReceiver? hname]
    exact ha
  | none =>
    simp only [pure_bind]
    exact htarget.bind fun v hv => harguments.bind fun a ha => .pure (hv.append ha)

/-- The types of the arguments of a call that are not packed. -/
theorem lowerCall_typed (t : IrType) {receiver : Node} {method : String}
    {arguments : List Node} (hpacking : sc.packing? receiver method arguments = none)
    (target : Lower Value) {values : List (Lower Value)} {ts : List IrType}
    (h : List.Forall₂ (fun t x => Lower.Typed x t fun _ => True) ts values) :
    Yields (sc.lowerCall t receiver method arguments target values)
      (fun a => a.1.arguments.map Operand.type = ts) fun _ => True := by
  have harguments := lowerArguments_typed hpacking h
  unfold lowerCall
  split
  · simp only [pure_bind]
    exact harguments.bind fun a ha => .pure ha
  · simp only [pure_bind]
    exact .seq fun v => harguments.bind fun a ha => .pure ha

/-- Arguments are packed only for a method of the class. -/
theorem exists_params_of_packing? {receiver : Node} {method : String} {arguments : List Node}
    (h : (sc.packing? receiver method arguments).isSome = true) :
    sc.isLocalReceiver receiver = true ∧ ∃ ps, sc.table.params? method = some ps := by
  unfold packing? at h
  simp only at h
  split at h
  · rename_i hpacks
    obtain ⟨hlocal, hvarargs⟩ := (Bool.and_eq_true _ _).mp hpacks
    exact ⟨hlocal, SymbolTable.exists_params?_of_isVarargs hvarargs⟩
  · cases h

/-- The parameters of a call that passes the checks have the types that the checks find. -/
theorem call_signature (hplaced : sc.placed = none) (hclass : IsIdentifier sc.table.className)
    (hrows : sc.TakesRowsInArrays) {i : Nat} {p : Position} {receiver : Node} {method : String}
    {arguments : List Node} (h : sc.Approves ⟨i, p, .call receiver method arguments⟩) (d : Ty) :
    Yields (sc.lowerCall (.ofTy (sc.resultType d ⟨i, p, .call receiver method arguments⟩)) receiver
        method arguments (sc.lowerExpr .object receiver)
        (sc.lowerEach (sc.argumentDemands receiver method arguments) arguments))
      (fun a => a.1.signature = (sc.signatureTypes receiver method arguments).map .ofTy)
      fun _ => True := by
  have htyped {c : Node} (hc : c ∈ receiver :: arguments) :=
    sc.lowerExpr_givesTyped hplaced hclass hrows (h.child hc)
      (h.wellFormed.isExpr_of_mem_children rfl hc)
  have hreceiver := (h.child (m := receiver) List.mem_cons_self).wellFormed
  unfold signatureTypes
  split
  · rename_i ps hps
    obtain ⟨hlocal, hps⟩ : sc.isLocalReceiver receiver = true ∧
        sc.table.params? method = some ps := by
      by_cases hlocal : sc.isLocalReceiver receiver = true
      · exact ⟨hlocal, by rwa [if_pos hlocal] at hps⟩
      · rw [if_neg hlocal] at hps
        cases hps
    refine (call_calls hplaced hclass hrows h d).mono fun a ha => ?_
    rw [Call.signature, (ha.params hlocal ps hps).1, Option.getD_some, List.map_map]
    rfl
  · rename_i hnone
    have hnot (hlocal : sc.isLocalReceiver receiver = true) : sc.table.params? method = none := by
      rwa [if_pos hlocal] at hnone
    have hpacking : sc.packing? receiver method arguments = none := by
      refine Option.not_isSome_iff_eq_none.mp fun hpacks => ?_
      obtain ⟨hlocal, ps, hps⟩ := exists_params_of_packing? hpacks
      cases (hnot hlocal).symm.trans hps
    obtain ⟨r, hr, htarget⟩ := htyped List.mem_cons_self .object
    obtain ⟨ts, hts, hvalues⟩ := lowerEach_gives (fun c hc => htyped (List.mem_cons_of_mem _ hc))
      (sc.length_argumentDemands receiver method arguments)
    have htypes := lowerCall_typed (.ofTy (sc.resultType d ⟨i, p, .call receiver method arguments⟩))
      hpacking (sc.lowerExpr .object receiver)
      (hvalues.imp fun _ _ hv => hv.yields.mono fun _ hv => hv.2)
    refine ((sc.lowerCall_says _ receiver method arguments (htarget.yields.mono fun _ hv => hv.2)
      fun name => ofTy_of_staticReceiver? hreceiver hr).and htypes).mono fun a ha => ?_
    obtain ⟨⟨-, -, -, -, hparams⟩, htypes⟩ := ha
    have hunknown : a.1.paramTypes = none := by
      rw [hparams, declaredParams?]
      split
      · rw [hnot ‹_›]
      · rfl
    rw [Call.signature, hunknown, Option.getD_none, htypes, argumentTypes, hts, List.map_map,
      List.map_map]
    rfl

/-- **The instruction for a call that passes the checks says what the checks find**: which class the
receiver is of, and which types the parameters and the result have. -/
theorem call_callee (hplaced : sc.placed = none) (hclass : IsIdentifier sc.table.className)
    (hrows : sc.TakesRowsInArrays) {i : Nat} {p : Position} {receiver : Node} {method : String}
    {arguments : List Node} (h : sc.Approves ⟨i, p, .call receiver method arguments⟩) (d : Ty) :
    Yields (sc.lowerCall (.ofTy (sc.resultType d ⟨i, p, .call receiver method arguments⟩)) receiver
        method arguments (sc.lowerExpr .object receiver)
        (sc.lowerEach (sc.argumentDemands receiver method arguments) arguments))
      (fun a => a.1.callee = sc.callee receiver method arguments
        (sc.resultType d ⟨i, p, .call receiver method arguments⟩)) fun _ => True := by
  have hreceiver := h.child (m := receiver) List.mem_cons_self
  obtain ⟨r, hr, htarget⟩ := sc.hasLoweredType hplaced hclass hreceiver
    (h.wellFormed.isExpr_of_mem_children rfl List.mem_cons_self) .object
  refine ((sc.lowerCall_says _ receiver method arguments htarget.anyFailure fun name =>
    ofTy_of_staticReceiver? hreceiver.wellFormed hr).and
      (call_signature hplaced hclass hrows h d)).mono fun a ha => ?_
  obtain ⟨⟨hmethod, hinvocation, htype, hresult, -⟩, hsignature⟩ := ha
  rw [Call.callee, callee, hinvocation, htype, hmethod, hsignature, hresult, hr, Option.getD_some]

/-- The code for a call that passes the checks, with the call itself behind it, mentions what the
call and its parts ask for. -/
theorem call_mentions (hplaced : sc.placed = none) (hclass : IsIdentifier sc.table.className)
    (hrows : sc.TakesRowsInArrays) {i : Nat} {p : Position} {receiver : Node} {method : String}
    {arguments : List Node} (h : sc.Approves ⟨i, p, .call receiver method arguments⟩)
    (hm : ∀ c ∈ receiver :: arguments, ∀ d, MentionsAs (sc.mentions d c) (sc.lowerExpr d c))
    (d : Ty) :
    Yields (sc.lowerCall (.ofTy (sc.resultType d ⟨i, p, .call receiver method arguments⟩)) receiver
        method arguments (sc.lowerExpr .object receiver)
        (sc.lowerEach (sc.argumentDemands receiver method arguments) arguments))
      (fun a => Mentions (sc.mentions d ⟨i, p, .call receiver method arguments⟩)
        (a.2 ++ [.call a.1]))
      fun _ => True := by
  obtain ⟨hreceiver, hrest⟩ := List.forall_mem_cons.mp hm
  have hcode := sc.lowerCall_mentions
    (.ofTy (sc.resultType d ⟨i, p, .call receiver method arguments⟩)) receiver method arguments
    (hreceiver .object)
    (lowerEach_mentions hrest (sc.length_argumentDemands receiver method arguments))
  refine (hcode.and (call_callee hplaced hclass hrows h d)).mono fun a ha => ?_
  obtain ⟨hcode, hcallee⟩ := ha
  refine (hcode.concat_instr (.call a.1)).of_mem fun x => ?_
  rw [mentions_eq (n := ⟨i, p, .call receiver method arguments⟩) (Node.IsExpr.not_method rfl)]
  simp only [Instr.mention?, hcallee, Option.toList_some, mentionsAt, Node.children, Kind.children,
    demands, List.zip_cons_cons, List.flatMap_cons, mentionsEach, ← List.flatMap_def,
    List.mem_append, List.mem_cons, List.not_mem_nil, or_false]
  tauto

/-! ### Expressions -/

/-- **The code for an expression that passes all checks mentions what its sites ask for.** -/
theorem lowerExpr_mentions (hplaced : sc.placed = none) (hclass : IsIdentifier sc.table.className)
    (hrows : sc.TakesRowsInArrays) (h : sc.Approves n) (hn : n.IsExpr) (d : Ty) :
    MentionsAs (sc.mentions d n) (sc.lowerExpr d n) := by
  induction n using Node.induction generalizing d with
  | step n ih =>
    have ih (c : Node) (hc : c ∈ n.children) (d : Ty) :
        MentionsAs (sc.mentions d c) (sc.lowerExpr d c) :=
      ih c hc (h.child hc) (h.wellFormed.isExpr_of_mem_children hn hc) d
    have htyped := fun c (hc : c ∈ n.children) => sc.hasLoweredType hplaced hclass (h.child hc)
      (h.wellFormed.isExpr_of_mem_children hn hc)
    have hlabel := hn.not_method
    obtain ⟨i, p, k⟩ := n
    cases k with
    | program | importDecl | classDecl | varDecl | methodDecl | param | assign | arrayAssign
    | returning | ifElse | whileLoop | block | exprStmt => cases hn
    | intLit | boolLit | this =>
      rw [mentions_eq hlabel]
      exact .pure .nil
    | varRef name =>
      rw [mentions_eq hlabel]
      exact (sc.lowerName_mentions name p).mono fun v hv => hv.of_mem fun x => by
        simp [mentionsAt, Node.children, Kind.children]
    | paren inner =>
      rw [mentions_of_single hlabel rfl rfl]
      exact ih inner List.mem_cons_self d
    | binary op left right =>
      have hdemands : sc.demands d ⟨i, p, .binary op left right⟩ =
          [(sc.operandDemands op left right).1, (sc.operandDemands op left right).2] := rfl
      rw [mentions_of_two hlabel rfl hdemands]
      have hright := ih right mem_second
        (sc.operandDemands op left right).2
      rw [mentionsAt, List.nil_append]
      exact binary_mentions op (ih left List.mem_cons_self _) hright
    | unary op operand =>
      rw [mentions_of_single hlabel rfl rfl]
      cases op
      exact (ih operand List.mem_cons_self _).bind fun v hv => assignTemp_mentions hv _
    | newObject className =>
      rw [mentions_eq hlabel]
      refine ((assignTemp_mentions .nil (.newObject className)).and
        (assignTemp_typed [] (.newObject className))).bind fun v hv => .pure ?_
      refine (hv.1.concat_instr (.call (.construct v.operand))).of_mem fun x => ?_
      simp [Instr.mention?, Rhs.mention?, Call.callee, Call.construct, Call.signature, hv.2,
        Rhs.type, mentionsAt, Node.children, Kind.children]
    | newArray element size =>
      rw [mentions_of_single hlabel rfl rfl]
      obtain ⟨t, ht, hsize⟩ := htyped size List.mem_cons_self .int
      refine ((ih size List.mem_cons_self .int).and hsize.anyFailure).bind fun v hv => ?_
      refine (assignTemp_mentions hv.1 _).mono fun a ha => ?_
      simpa only [Rhs.mention?, hv.2, mentionsAt, ht, Option.getD_some, Option.toList_some] using ha
    | arrayAccess array index =>
      rw [mentions_of_two hlabel rfl rfl]
      refine (ih array List.mem_cons_self _).bind fun v hv => ?_
      refine (toVar_mentions hv).bind fun x hx => ?_
      refine (ih index mem_second _).bind fun j hj => ?_
      exact assignTemp_mentions (hx.append hj) _
    | arrayLength array =>
      rw [mentions_of_single hlabel rfl rfl]
      refine (ih array List.mem_cons_self _).bind fun v hv => ?_
      exact (toVar_mentions hv).bind fun x hx => assignTemp_mentions hx _
    | arrayLit elements =>
      rw [mentions_eq hlabel]
      have heach := lowerEach_mentions (fun c hc => ih c hc)
        (sc.length_demands d ⟨i, p, .arrayLit elements⟩)
      refine (packArray_mentions _ heach).bind fun a ha => .pure ?_
      rw [mentionsEach, ← List.flatMap_def] at ha
      exact ha
    | call receiver method arguments =>
      rw [lowerExpr_call]
      refine (call_mentions hplaced hclass hrows h ih d).bind ?_
      rintro ⟨c, code⟩ hc
      by_cases hvoid : c.returnType = .void
      · simp only [hvoid, if_true]
        exact (Yields.throw (P := fun _ => False) trivial).bind fun _ h => h.elim
      · simp only [hvoid, if_false]
        refine .seq fun dest => .pure fun x => ?_
        rw [← hc x]
        simp [Instr.mention?, Rhs.mention?]

/-! ### Statements -/

/-- A computation mentions the same if it ends in another variable. -/
theorem mentions_retarget (dest : Var) (v : Value) :
    Ir.mentions ((retarget? dest v).getD (v.code ++ [.assign dest (.single v.operand)])) =
      Ir.mentions v.code := by
  cases hretarget : retarget? dest v with
  | none => simp [Instr.mention?, Rhs.mention?]
  | some code =>
    obtain ⟨front, last, rhs, rfl, rfl⟩ := retarget?_eq_some hretarget
    simp [Instr.mention?]

theorem lowerAssign_mentions {ms : List Mention} {x : Lower Value} (hx : MentionsAs ms x)
    (target : String) (p : Position) :
    Yields (sc.lowerAssign target p x) (Mentions (sc.fieldMention target ++ ms)) fun _ => True := by
  refine hx.bind fun v hv => ?_
  have hassign (dest : Var) : Mentions ms ((retarget? dest v).getD
      (v.code ++ [.assign dest (.single v.operand)])) := fun x => by
    rw [mentions_retarget, hv x]
  unfold fieldMention
  cases sc.lookup? target with
  | none => exact .throw trivial
  | some b =>
    cases b with
    | imported => exact .throw trivial
    | param | «local» => exact .pure (hassign _)
    | field t =>
      exact .pure (hv.concat_instr (.putField sc.thisOperand ⟨target, .ofTy t⟩ v.operand))

theorem lowerArrayName_mentions (target : String) (p : Position) :
    Yields (sc.lowerArrayName target p) (fun a => Mentions (sc.fieldMention target) a.2)
      fun _ => True := by
  unfold lowerArrayName fieldMention
  cases sc.lookup? target with
  | none => exact .throw trivial
  | some b =>
    cases b with
    | imported => exact .throw trivial
    | param | «local» => exact .pure .nil
    | field t => exact .seq fun dest => .pure (Mentions.nil.concat_instr _)

theorem lowerDropped_mentions (hplaced : sc.placed = none)
    (hclass : IsIdentifier sc.table.className) (hrows : sc.TakesRowsInArrays) (h : sc.Approves n)
    (hn : n.IsExpr) :
    Yields (sc.lowerDropped n) (Mentions (sc.mentions .void n)) fun _ => True := by
  induction n using Node.induction with
  | step n ih =>
    have hexpr {c : Node} (hc : c ∈ n.children) : c.IsExpr :=
      h.wellFormed.isExpr_of_mem_children hn hc
    have hchild (c : Node) (hc : c ∈ n.children) :=
      lowerExpr_mentions hplaced hclass hrows (h.child hc) (hexpr hc)
    have hvalue := lowerExpr_mentions hplaced hclass hrows h hn .void
    have hlabel := hn.not_method
    obtain ⟨i, p, k⟩ := n
    cases k with
    | paren inner =>
      rw [mentions_of_single hlabel rfl rfl]
      exact ih inner List.mem_cons_self (h.child List.mem_cons_self) (hexpr List.mem_cons_self)
    | call receiver method arguments =>
      rw [lowerDropped_call]
      exact (call_mentions hplaced hclass hrows h hchild .void).bind fun a ha => .pure ha
    | _ => exact hvalue.bind fun v hv => .pure hv

/-- What some statements mention. Nothing is demanded of them. -/
theorem lowerStmts_mentions {ns : List Node}
    (h : ∀ n ∈ ns, Yields (sc.lowerStmt n) (Mentions (sc.mentions .int n)) fun _ => True) :
    Yields (sc.lowerStmts ns) (Mentions (ns.flatMap (sc.mentions .int))) fun _ => True := by
  induction ns with
  | nil => exact .pure .nil
  | cons n ns ih =>
    obtain ⟨hn, hns⟩ := List.forall_mem_cons.mp h
    exact hn.bind fun p hp => (ih hns).bind fun q hq => .pure (hp.append hq)

theorem mentions_closeWith (code : Code) (target : String) :
    Ir.mentions (closeWith code target) = Ir.mentions code := by
  unfold closeWith
  split
  · rfl
  · simp [Instr.mention?]

/-- **The code for a statement that passes all checks mentions what its sites ask for.** -/
theorem lowerStmt_mentions (hplaced : sc.placed = none) (hclass : IsIdentifier sc.table.className)
    (hrows : sc.TakesRowsInArrays) (h : sc.Approves n) (hn : n.IsStmt) (d : Ty) :
    Yields (sc.lowerStmt n) (Mentions (sc.mentions d n)) fun _ => True := by
  induction n using Node.induction generalizing d with
  | step n ih =>
    have hexpr {c : Node} (hc : c ∈ n.children) (hc' : c.IsExpr) (d : Ty) :=
      lowerExpr_mentions hplaced hclass hrows (h.child hc) hc' d
    have hstmt {c : Node} (hc : c ∈ n.children) (hc' : c.IsStmt) (d : Ty) :=
      ih c hc (h.child hc) hc' d
    have hfits := h.wellFormed.fits
    have hlabel := hn.not_method
    have hall := sc.mentions_eq hlabel d
    obtain ⟨i, p, k⟩ := n
    cases k with
    | assign target value =>
      rw [mentions_of_single hlabel rfl rfl]
      have hvalue :=
        hexpr List.mem_cons_self (hfits value List.mem_cons_self) (sc.targetDemand target)
      exact lowerAssign_mentions hvalue target p
    | arrayAssign target index value =>
      have hdemands : sc.demands d ⟨i, p, .arrayAssign target index value⟩ =
          [.int, sc.elementDemand target] := rfl
      rw [mentions_of_two hlabel rfl hdemands]
      have hmem : value ∈ [index, value] := mem_second
      refine (lowerArrayName_mentions target p).bind fun a ha => ?_
      refine (hexpr List.mem_cons_self (hfits index List.mem_cons_self) .int).bind fun j hj => ?_
      refine (hexpr hmem (hfits value hmem) _).bind fun v hv => .pure ?_
      exact (((ha.append hj).append hv).concat rfl).of_mem fun x => by
        rw [List.append_assoc]
        rfl
    | returning value =>
      cases value with
      | none =>
        rw [hall]
        exact .pure .nil
      | some value =>
        rw [mentions_of_single hlabel rfl rfl]
        have hvalue := hexpr List.mem_cons_self (hfits value List.mem_cons_self) sc.resultDemand
        exact hvalue.bind fun v hv => .pure (hv.concat rfl)
    | ifElse c thenBranch elseBranch =>
      obtain ⟨hc, hthen, helse⟩ := hfits
      have hcond := hexpr List.mem_cons_self hc .boolean
      have hthen := hstmt mem_second hthen .boolean
      cases elseBranch with
      | none =>
        rw [mentions_of_two hlabel rfl rfl]
        refine .seq fun k => hcond.bind fun v hv => hthen.bind fun thenCode ht => .pure ?_
        exact ((hv.concat rfl).append ht).concat rfl
      | some elseBranch =>
        have helse := hstmt mem_third
          (helse elseBranch rfl) .boolean
        refine .seq fun k => hcond.bind fun v hv => helse.bind fun elseCode he => ?_
        refine hthen.bind fun thenCode ht => .pure ?_
        have hclosed : Mentions (sc.mentions .boolean elseBranch)
            (closeWith (.branch v.operand ("if_then_" ++ toString k) :: elseCode)
              ("if_end_" ++ toString k)) := fun x => by
          rw [mentions_closeWith, mentions_cons, ← he x]
          rfl
        refine ((((hv.append hclosed).concat rfl).append ht).concat rfl).of_mem fun x => ?_
        rw [hall]
        simp only [mentionsAt, Node.children, Kind.children, demands, Option.toList_some,
          List.map_cons, List.map_nil, List.zip_cons_cons, List.zip_nil_right, List.flatMap_cons,
          List.flatMap_nil, List.append_nil, List.nil_append, List.mem_append]
        tauto
    | whileLoop c body =>
      obtain ⟨hc, hbody⟩ := hfits
      rw [mentions_of_two hlabel rfl rfl]
      refine .seq fun k => (hexpr List.mem_cons_self hc .boolean).bind fun v hv => ?_
      have hbodyCode := hstmt mem_second hbody .boolean
      refine hbodyCode.bind fun bodyCode hb => .pure ?_
      exact ((((hv.behind (p := [_]) rfl).concat rfl).append hb).concat rfl)
    | block statements =>
      have hdemands : sc.demands d ⟨i, p, .block statements⟩ = statements.map fun _ => .int := rfl
      rw [hall, hdemands, Node.children, Kind.children, flatMap_mentions_zip]
      exact lowerStmts_mentions fun c hc => hstmt hc (hfits c hc) .int
    | exprStmt e =>
      rw [mentions_of_single hlabel rfl rfl]
      exact lowerDropped_mentions hplaced hclass hrows (h.child List.mem_cons_self)
        (hfits e List.mem_cons_self)
    | _ => cases hn

end Scope

/-! ## Methods -/

/-- What the code for a method mentions. -/
def Node.mentions (t : SymbolTable) (m : Node) : List Mention :=
  (sitesWithin t m none .int).flatMap fun s => s.scope.mentionsAt s.demand s.node

variable {t : SymbolTable} {n : Node} {head : MethodHead} {params locals body : List Node}

/-- The declarations of a method mention nothing. -/
theorem Node.mentions_of_method (hkind : n.kind = .methodDecl head params locals body)
    (hn : n.WellFormed) :
    n.mentions t = body.flatMap ((Scope.ofMethod t head).mentions .int) := by
  have hscope (around : Option Scope) : n.scopeWithin t around = some (.ofMethod t head) := by
    simp only [scopeWithin, hkind]
  have hsites : n.mentions t = (Scope.ofMethod t head).mentions .int n := by
    have hwithin : sitesWithin t n none .int = sitesWithin t n (some (.ofMethod t head)) .int := by
      rw [sitesWithin_eq, sitesWithin_eq t n (some _), hscope, hscope]
    exact congrArg (List.flatMap fun s => s.scope.mentionsAt s.demand s.node) hwithin
  have hfits := hn.fits
  obtain ⟨i, p, k⟩ := n
  subst hkind
  have hnothing (c : Node) (hc : c.label = .param ∨ c.label = .varDecl) :
      (Scope.ofMethod t head).mentions .int c = [] := by
    obtain ⟨i, p, k⟩ := c
    cases k with
    | param | varDecl => rfl
    | _ => rcases hc with hc | hc <;> cases hc
  have hparams : params.flatMap ((Scope.ofMethod t head).mentions .int) = [] :=
    List.flatMap_eq_nil_iff.mpr fun c hc => hnothing c (.inl (hfits.1 c hc))
  have hlocals : locals.flatMap ((Scope.ofMethod t head).mentions .int) = [] :=
    List.flatMap_eq_nil_iff.mpr fun c hc => hnothing c (.inr (hfits.2.1 c hc))
  refine (hsites.trans (Scope.mentions_of_scopeWithin (hscope _) .int)).trans ?_
  refine (Scope.flatMap_mentions_zip (.ofMethod t head) (params ++ locals ++ body) .int).trans ?_
  rw [List.flatMap_append, List.flatMap_append, hparams, hlocals, List.nil_append, List.nil_append]

/-- **The code of a method that passes all checks mentions what its sites ask for**, and nothing
else. -/
theorem lowerMethod_mentions {m : Method} {s s' : Supply} (hclass : IsIdentifier t.className)
    (hrows : (Scope.ofMethod t head).TakesRowsInArrays)
    (hkind : n.kind = .methodDecl head params locals body) (h : (Scope.ofMethod t head).Approves n)
    (hm : (lowerMethod (Scope.ofMethod t) n).run s = .ok (m, s')) :
    Mentions (n.mentions t) m.code := by
  obtain ⟨head', params', locals', body', code, hkind', hcode, -, -, -, hbody⟩ :=
    lowerMethod_eq_ok hm
  cases hkind.symm.trans hkind'
  have hmentions := (Scope.lowerStmts_mentions fun c hc => Scope.lowerStmt_mentions rfl hclass hrows
    (h.statement hkind hc).1 (h.statement hkind hc).2.1 .int).of_run hcode
  rw [Node.mentions_of_method hkind h.wellFormed]
  rcases hbody with ⟨hm, -⟩ | ⟨hm, -⟩ <;> rw [hm]
  · exact hmentions.concat rfl
  · exact hmentions

end MiniJava
