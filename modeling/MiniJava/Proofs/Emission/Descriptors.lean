import MiniJava.Proofs.Emission.Assembly
import MiniJava.Proofs.Emission.Encoding
import MiniJava.Proofs.Optimize.Mentions

/-!
# Descriptors in assembly

A descriptor is valid if `V` is nothing in it but the whole result of a method. The descriptors in
the assembly of a class are those of its fields and methods and those of the members that its
instructions mention (`Jvm.descriptors_emitted`), and these are what the sites of the source ask
for.

The grammar has `void` among the types, and no check refuses it for a variable. So the descriptors
are valid exactly if nothing is declared with such a type that a descriptor shows, and if no call
passes or returns it (`isValid_descriptors_iff`).
-/

namespace MiniJava

open Ir

/-! ## Valid descriptors -/

namespace Jvm

/-- There are values of the type: nothing in it is void. -/
def JType.isValue : JType → Bool
  | void => false
  | array t => t.isValue
  | _ => true

/-- The descriptor of a field or of a method. -/
inductive Descriptor where
  | field (type : JType)
  | method (type : MethodType)
deriving DecidableEq, Repr

/-- Only the result of a method may be void, as a whole. -/
def Descriptor.isValid : Descriptor → Bool
  | field t => t.isValue
  | method t => t.params.all JType.isValue && (t.result = .void || t.result.isValue)

/-- The descriptor in an instruction. -/
def Instr.descriptor? : Instr → Option Descriptor
  | getField f | putField f => some (.field f.type)
  | invoke _ method _ => some (.method method.type)
  | _ => none

/-- The descriptors in the lines of a method. -/
def EmittedMethod.descriptors (e : EmittedMethod) : List Descriptor :=
  .method e.type :: e.code.filterMap Instr.descriptor?

/-- The descriptors in the assembly of a class. The constructor has that of the one it calls. -/
def Assembly.descriptors (a : Assembly) : List Descriptor :=
  (a.fields.map fun f => .field f.2) ++
    .method ⟨[], .void⟩ :: a.methods.flatMap EmittedMethod.descriptors

/-! ## Descriptors of members that are mentioned -/

/-- The descriptor of the member that is mentioned. -/
def ClassNames.descriptor? (cs : ClassNames) : Mention → Option Descriptor
  | .call c => some (.method (cs.methodType c.signature c.result))
  | .field f => some (.field (cs.jtype f.type))
  | .newArray _ => none

namespace Frame

variable {fr : Frame} {n : Nat}

/-- A block has the descriptor of what its instruction mentions. -/
theorem descriptors_block (i : Ir.Instr) : (fr.block n i).filterMap Instr.descriptor? =
    (i.mention?.bind fr.classes.descriptor?).toList := by
  have hloads (os : List Operand) : (os.map fr.loading).filterMap Instr.descriptor? = [] := by
    rw [List.filterMap_map]
    exact List.filterMap_eq_nil_iff.mpr fun o _ => by cases o <;> rfl
  rw [block, List.filterMap_append, hloads, List.nil_append]
  cases i with
  | assign dest value =>
    cases value with
    | binary op left right => cases op <;> rfl
    | _ => rfl
  | call c =>
    rw [finishing]
    split <;> rfl
  | ret value => cases value <;> rfl
  | _ => rfl

theorem descriptors_blocks (code : Code) : (fr.blocks n code).flatten.filterMap Instr.descriptor? =
    (mentions code).filterMap fr.classes.descriptor? := by
  induction code generalizing n with
  | nil => rfl
  | cons i is ih =>
    rw [blocks, List.flatten_cons, List.filterMap_append, descriptors_block, ih, mentions_cons,
      List.filterMap_append]
    cases i.mention? with
    | none => rfl
    | some x => cases x <;> rfl

end Frame

/-- **The code of a method has the descriptors of the members that it mentions.** -/
theorem descriptors_emitted (cs : ClassNames) (m : Method) :
    (emitted cs m).code.filterMap Instr.descriptor? =
      (mentions m.code).filterMap cs.descriptor? :=
  Frame.descriptors_blocks m.code

end Jvm

/-! ## Types in the source -/

/-- The type is that of values, neither `void` nor an array of that. -/
def Ty.isOfValues (t : Ty) : Bool := t.name != "void"

/-- A method may have this result: a value or none. -/
def Ty.isResult (t : Ty) : Bool := t = .void || t.isOfValues

namespace Jvm

variable (cs : ClassNames)

theorem isValue_jtype (t : Ty) : (cs.jtype (.ofTy t)).isValue = t.isOfValues := by
  obtain ⟨name, isArray⟩ := t
  have hname : (cs.jtype (.ofName name)).isValue = (name != "void") := by
    unfold IrType.ofName
    split
    · rfl
    · rfl
    · rfl
    · rfl
    · rename_i hvoid _
      exact (bne_iff_ne.mpr hvoid).symm
  cases isArray <;> exact hname

/-- The descriptor of a method is valid if the parameters are values and the result is one or
none. -/
theorem isValid_methodType (ps : List Ty) (r : Ty) :
    (Descriptor.method (cs.methodType (ps.map .ofTy) (.ofTy r))).isValid =
      (ps.all Ty.isOfValues && r.isResult) := by
  have hparams : ((ps.map IrType.ofTy).map cs.jtype).all JType.isValue = ps.all Ty.isOfValues := by
    rw [List.map_map, List.all_map]
    exact congrArg ps.all (funext (isValue_jtype cs))
  have hresult : (decide (cs.jtype (.ofTy r) = .void) || (cs.jtype (.ofTy r)).isValue) =
      r.isResult := by
    simp only [ClassNames.jtype_eq_void, IrType.ofTy_eq_void, isValue_jtype, Ty.isResult]
  exact congrArg₂ and hparams hresult

end Jvm

/-- All types of fields, parameters and results are such that descriptors may show them. -/
structure SymbolTable.HasValueTypes (t : SymbolTable) : Prop where
  fields : ∀ f ∈ t.fields, f.type.isOfValues = true
  signatures : ∀ sig ∈ t.signatures,
    (sig.params.map Variable.type).all Ty.isOfValues = true ∧ sig.returnType.isResult = true

/-- The call passes values, and its result is a value or there is none. -/
def Site.PassesValues (s : Site) : Prop :=
  ∀ receiver method arguments, s.node.kind = .call receiver method arguments →
    (s.scope.signatureTypes receiver method arguments).all Ty.isOfValues = true ∧
      (s.scope.resultType s.demand s.node).isResult = true

/-! ## What sites ask for -/

namespace Scope

open Jvm

variable {sc : Scope} {n : Node} {d : Ty} {x : Mention}

/-- A call in the source asks for the call of a method. -/
theorem callee_mem_mentionsAt {receiver : Node} {method : String} {arguments : List Node}
    (hkind : n.kind = .call receiver method arguments) :
    .call (sc.callee receiver method arguments (sc.resultType d n)) ∈ sc.mentionsAt d n := by
  rw [mentionsAt, hkind]
  exact List.mem_cons_self

theorem isOrdinaryCall_callee (receiver : Node) (method : String) (arguments : List Node)
    (result : Ty) : (Mention.call (sc.callee receiver method arguments result)).isOrdinaryCall := by
  simp only [Mention.isOrdinaryCall, callee]
  split <;> rfl

/-- Nothing but a call in the source asks for the call of a method. -/
theorem eq_callee_of_mem_mentionsAt (hx : x ∈ sc.mentionsAt d n) (hcall : x.isOrdinaryCall = true) :
    ∃ receiver method arguments, n.kind = .call receiver method arguments ∧
      x = .call (sc.callee receiver method arguments (sc.resultType d n)) := by
  cases asksFor_of_mem_mentionsAt hx with
  | call hkind => exact ⟨_, _, _, hkind, rfl⟩
  | _ => cases hcall

/-- Apart from calls of methods, what is asked for has a valid descriptor or none, if the fields
have types of values. -/
theorem isValid_of_mem_mentionsAt (cs : ClassNames)
    (hfields : ∀ f ∈ sc.table.fields, f.type.isOfValues = true) (hx : x ∈ sc.mentionsAt d n)
    (hcall : x.isOrdinaryCall = false) : ∀ y ∈ cs.descriptor? x, y.isValid = true := by
  intro y hy
  cases asksFor_of_mem_mentionsAt hx with
  | @field name t ht =>
    obtain ⟨f, hf, heq⟩ := List.mem_map.mp (mem_fields_of_lookup? ht)
    cases hy
    rw [← heq]
    exact (isValue_jtype cs f.type).trans (hfields f hf)
  | construct =>
    cases hy
    rfl
  | newArray | row => cases hy
  | call =>
    rw [isOrdinaryCall_callee] at hcall
    cases hcall

end Scope

namespace Jvm

variable {t : SymbolTable} {n : Node} {code : Code}

/-- **The descriptors in the code of a method are valid exactly if its calls pass values**, provided
that the fields have types of values. -/
theorem isValid_mentions_iff (cs : ClassNames)
    (hfields : ∀ f ∈ t.fields, f.type.isOfValues = true) {head : MethodHead}
    {params locals body : List Node} (hkind : n.kind = .methodDecl head params locals body)
    (hn : n.WellFormed) (h : Thins (n.mentions t) (mentions code)) :
    (∀ y ∈ (mentions code).filterMap cs.descriptor?, y.isValid = true) ↔
      ∀ s ∈ sitesWithin t n none .int, s.PassesValues := by
  have hcallee (sc : Scope) (receiver : Node) (method : String) (arguments : List Node) (r : Ty) :
      (Descriptor.method (cs.methodType (sc.callee receiver method arguments r).signature
        (sc.callee receiver method arguments r).result)).isValid =
        ((sc.signatureTypes receiver method arguments).all Ty.isOfValues && r.isResult) :=
    isValid_methodType cs _ r
  constructor
  · intro hvalid s hs receiver method arguments hcall
    have hx := h.calls _ (List.mem_flatMap.mpr ⟨s, hs, Scope.callee_mem_mentionsAt hcall⟩)
      (Scope.isOrdinaryCall_callee receiver method arguments _)
    have hy := hvalid _ (List.mem_filterMap.mpr ⟨_, hx, rfl⟩)
    exact (Bool.and_eq_true _ _).mp ((hcallee ..).symm.trans hy)
  · intro hpasses y hy
    obtain ⟨x, hx, hy⟩ := List.mem_filterMap.mp hy
    obtain ⟨s, hs, hx⟩ := List.mem_flatMap.mp (h.subset hx)
    have htable : s.scope.table = t := by
      rw [(of_mem_sitesWithin_method hn hkind hs).1]
      rfl
    cases hordinary : x.isOrdinaryCall with
    | true =>
      obtain ⟨receiver, method, arguments, hcall, rfl⟩ :=
        Scope.eq_callee_of_mem_mentionsAt hx hordinary
      cases hy
      exact (hcallee ..).trans ((Bool.and_eq_true _ _).mpr (hpasses s hs _ _ _ hcall))
    | false =>
      exact Scope.isValid_of_mem_mentionsAt cs (htable ▸ hfields) hx hordinary y hy

/-- The header of a method has a valid descriptor if the signature in the symbol table may be
shown. -/
theorem isValid_header (cs : ClassNames) {m : Method} {s s' : Supply}
    (hm : (lowerMethod (Scope.ofMethod t) n).run s = .ok (m, s')) :
    ∃ sig, SymbolTable.signatureOf? n = some sig ∧
      (Descriptor.method (emitted cs m).type).isValid =
        ((sig.params.map Variable.type).all Ty.isOfValues && sig.returnType.isResult) := by
  obtain ⟨head, params, locals, body, _, hkind, -, -, -, hparams, -⟩ := lowerMethod_eq_ok hm
  obtain ⟨_, _, _, _, _, hkind', -, hresult, -⟩ := lowerMethod_shape hm
  cases hkind.symm.trans hkind'
  rw [SymbolTable.signatureOf?, hkind]
  refine ⟨_, rfl, ?_⟩
  rw [← isValid_methodType cs]
  change (Descriptor.method (cs.methodType (m.params.map Var.type) m.returnType)).isValid = _
  rw [hparams, hresult, List.map_map, List.map_map]
  rfl

/-- The descriptors in the assembly of a class are those of its fields and methods. -/
theorem isValid_descriptors_ofUnit_iff (u : ClassUnit) :
    (∀ y ∈ (Assembly.ofUnit u).descriptors, y.isValid = true) ↔
      (∀ f ∈ u.fields, ((ClassNames.ofUnit u).jtype f.type).isValue = true) ∧
        ∀ m ∈ u.methods, ∀ y ∈ (emitted (.ofUnit u) m).descriptors, y.isValid = true := by
  have hconstructor : (Descriptor.method ⟨[], .void⟩).isValid = true := rfl
  simp only [Assembly.descriptors, Assembly.ofUnit, List.map_map, List.flatMap_map,
    List.forall_mem_append, List.forall_mem_cons, hconstructor, true_and, List.forall_mem_map,
    List.mem_flatMap, forall_exists_index, and_imp]
  exact and_congr_right fun _ => ⟨fun h m hm y hy => h y m hm hy, fun h y m hm hy => h m hm y hy⟩

end Jvm

/-! ## Programs -/

open Jvm

variable {source : String} {root : Node} {table : SymbolTable} {options : CompileOptions}
  {compiled : Compiled}

/-- The signatures in the symbol table are those of the methods. -/
theorem Accepted.hasValueTypes_iff (h : Accepted source root table) : table.HasValueTypes ↔
    (∀ f ∈ table.fields, f.type.isOfValues = true) ∧
      ∀ n ∈ root.methods, ∀ sig ∈ SymbolTable.signatureOf? n,
        (sig.params.map Variable.type).all Ty.isOfValues = true ∧
          sig.returnType.isResult = true := by
  obtain ⟨_, -, _, -, hsignatures⟩ := h.exists_class
  constructor
  · intro ht
    refine ⟨ht.fields, fun n hn sig hsig => ht.signatures sig ?_⟩
    rw [hsignatures]
    exact List.mem_filterMap.mpr ⟨n, hn, hsig⟩
  · rintro ⟨hvalues, hsigs⟩
    refine ⟨hvalues, fun sig hsig => ?_⟩
    rw [hsignatures] at hsig
    obtain ⟨n, hn, hsig⟩ := List.mem_filterMap.mp hsig
    exact hsigs n hn sig hsig

/-- The descriptors in a method are valid if its signature may be shown and its calls pass
values. -/
theorem Accepted.isValid_method_iff (h : Accepted source root table) (cs : ClassNames)
    (hfields : ∀ f ∈ table.fields, f.type.isOfValues = true) {n n' : Node} (hn : n ∈ root.methods)
    (hsteps : Relation.ReflTransGen (Node.Reduces table) n n') {m : Method} {s s' : Supply}
    (hm : (lowerMethod (Scope.ofMethod table) n').run s = .ok (m, s')) :
    ((∀ sig ∈ SymbolTable.signatureOf? n, (sig.params.map Variable.type).all Ty.isOfValues = true ∧
      sig.returnType.isResult = true) ∧ ∀ s ∈ sitesWithin table n none .int, s.PassesValues) ↔
      ∀ y ∈ (emitted cs m).descriptors, y.isValid = true := by
  obtain ⟨head, params, locals, body, hkind, happroves⟩ := h.approves hn
  obtain ⟨body', hkind', -⟩ := Node.of_reduces hsteps hkind happroves
  obtain ⟨sig, hsig, hheader⟩ := isValid_header cs hm
  have hsame : SymbolTable.signatureOf? n = SymbolTable.signatureOf? n' := by
    rw [SymbolTable.signatureOf?, SymbolTable.signatureOf?, hkind, hkind']
  rw [EmittedMethod.descriptors, List.forall_mem_cons, descriptors_emitted, hheader,
    isValid_mentions_iff cs hfields hkind happroves.wellFormed (h.thins_of_lowered hn hsteps hm),
    Bool.and_eq_true, hsame, hsig]
  simp only [Option.mem_some_iff, forall_eq']

/-- **Which programs have valid descriptors**: those that declare no field and no parameter of type
`void`, nor any array of that, and none as a result, and whose calls pass and return no such thing.
This holds whether the program is optimized or not. -/
theorem isValid_descriptors_iff (h : Accepted source root table)
    (hcompile : compile options source = .ok compiled) :
    ∃ a, options.Emits table root a ∧ compiled.assembly = a.text ∧
      ((∀ y ∈ a.descriptors, y.isValid = true) ↔ table.HasValueTypes ∧
        ∀ m ∈ root.methods, ∀ s ∈ sitesWithin table m none .int, s.PassesValues) := by
  obtain ⟨root', hroot', unit, hlower, hemits, htext⟩ := h.exists_emits hcompile
  refine ⟨_, hemits, htext, ?_⟩
  have hfields : (∀ f ∈ unit.fields, ((ClassNames.ofUnit unit).jtype f.type).isValue = true) ↔
      ∀ f ∈ table.fields, f.type.isOfValues = true := by
    rw [(unit_eq_of_lower hlower).2, List.forall_mem_map]
    exact forall₂_congr fun f _ => Eq.congr_left (isValue_jtype _ f.type)
  rw [isValid_descriptors_ofUnit_iff, hfields, h.hasValueTypes_iff, and_assoc]
  refine and_congr_right fun hvalues => ?_
  rw [← forall_mem_iff_of_forall₂ ((h.forall₂_lowered hroot' hlower).imp
    fun n m ⟨hn, n', hsteps, s, s', hm⟩ => h.isValid_method_iff _ hvalues hn hsteps hm)]
  exact forall₂_and

/-- A method of a class that is not known takes an array and a truth value. -/
theorem isValid_descriptors_iff_row : ∃ root table compiled,
    Accepted "import io;class A{int[] n;boolean f(A a,int... b){io.p(n,a.f(this,1,2));return true;}}"
      root table ∧
    compile {} "import io;class A{int[] n;boolean f(A a,int... b){io.p(n,a.f(this,1,2));return true;}}" =
      .ok compiled ∧
    ∃ a, CompileOptions.Emits {} table root a ∧ compiled.assembly = a.text ∧
      ((∀ y ∈ a.descriptors, y.isValid = true) ↔ table.HasValueTypes ∧
        ∀ m ∈ root.methods, ∀ s ∈ sitesWithin table m none .int, s.PassesValues) := by
  obtain ⟨root, table, h, hp⟩ := Accepted.exists_of_any
    "import io;class A{int[] n;boolean f(A a,int... b){io.p(n,a.f(this,1,2));return true;}}"
    (fun root table => match lower table root with
      | .ok unit => unit.methods.all fun m => m.code.all Ir.Instr.hasBlock
      | .error _ => false)
    (by decide +kernel)
  split at hp
  · rename_i unit hlower
    obtain ⟨compiled, hcompile, -⟩ := h.exists_compile_eq_ok hlower hp
    exact ⟨root, table, compiled, h, hcompile, isValid_descriptors_iff h hcompile⟩
  · cases hp

/-- A field may be declared with the type `void`, which is then its descriptor. -/
theorem not_isValid_descriptors_field : ∃ root table compiled,
    Accepted "class A{void x;}" root table ∧ compile {} "class A{void x;}" = .ok compiled ∧
    ∃ a, CompileOptions.Emits {} table root a ∧ compiled.assembly = a.text ∧
      ¬∀ y ∈ a.descriptors, y.isValid = true := by
  obtain ⟨root, table, h, hp⟩ := Accepted.exists_of_any "class A{void x;}"
    (fun root table => match lower table root with
      | .ok unit => (unit.methods.all fun m => m.code.all Ir.Instr.hasBlock) &&
          (Assembly.ofUnit unit).descriptors.contains (.field .void)
      | .error _ => false)
    (by decide +kernel)
  split at hp
  · rename_i unit hlower
    obtain ⟨hblocks, hp⟩ := (Bool.and_eq_true _ _).mp hp
    obtain ⟨compiled, hcompile, -⟩ := h.exists_compile_eq_ok hlower hblocks
    obtain ⟨root', hroot', unit', hlower', hemits, htext⟩ := h.exists_emits hcompile
    obtain rfl : root' = root := hroot'
    cases hlower.symm.trans hlower'
    exact ⟨_, _, compiled, h, hcompile, _, hemits, htext, fun hvalid =>
      Bool.false_ne_true (hvalid _ (List.contains_iff_mem.mp hp))⟩
  · cases hp

end MiniJava
