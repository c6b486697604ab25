import MiniJava.Proofs.Optimize.Mentions

/-!
# Operands in the code of accepted programs

The checks look at the tree, and no instruction is looked at afterwards. Here is what they achieve
for two sorts of operands, whether the program is optimized or not.

* The object whose method is running: a static method has none. `this` is refused there wherever it
  stands, and a name is never looked up among the fields, so that no field is read or written either
  (`objectless_of_isStatic`).
* The size of a new array: nothing looks at the type of the expression that is written there. So the
  sizes in the code are integers exactly if these expressions are (`int32_sizes_iff`); a truth value
  may stand there as well (`not_int32_sizes_boolean`).
-/

namespace MiniJava

open Ir

/-! ## The object of a method -/

namespace Ir

/-- Every operand of a computation, also the class on which a method is called. -/
def Rhs.written : Rhs → List Operand
  | single value => [value]
  | binary _ left right => [left, right]
  | not operand => [operand]
  | call c => c.target :: c.arguments
  | getField object _ => [object]
  | arrayLoad array index => [.var array, index]
  | arrayLength array => [.var array]
  | newObject _ => []
  | newArray size _ => [size]

/-- Every operand of an instruction, also the class on which a method is called. -/
def Instr.written : Instr → List Operand
  | assign _ value => value.written
  | arrayStore array index value => [.var array, index, value]
  | putField object _ value => [object, value]
  | call c => c.target :: c.arguments
  | branch condition _ => [condition]
  | ret value => value.toList
  | goto _ | label _ => []

/-- The instruction has nothing to do with the object whose method is running. -/
structure Instr.IsObjectless (i : Instr) : Prop where
  this : ∀ className, .this className ∉ i.written
  getField : ∀ dest object field, i ≠ .assign dest (.getField object field)
  putField : ∀ object field value, i ≠ .putField object field value

variable {ctx : Context}

theorem Rhs.WellTyped.written {r : Rhs} (h : r.WellTyped ctx) :
    ∀ o ∈ r.written, o.WellTyped ctx := by
  cases r with
  | single => exact List.forall_mem_singleton.mpr h
  | binary => exact List.forall_mem_cons.mpr ⟨h.1, List.forall_mem_singleton.mpr h.2.1⟩
  | call => exact h.1.operands
  | getField => exact List.forall_mem_singleton.mpr h
  | arrayLoad array =>
    have harray : (Operand.var array).WellTyped ctx := trivial
    exact List.forall_mem_cons.mpr ⟨harray, List.forall_mem_singleton.mpr h.1⟩
  | arrayLength array =>
    have harray : (Operand.var array).WellTyped ctx := trivial
    exact List.forall_mem_singleton.mpr harray
  | newObject => exact List.forall_mem_nil _
  | not | newArray => exact List.forall_mem_singleton.mpr h.1

/-- The operands of a well-typed instruction are well-typed. -/
theorem Instr.WellTyped.written {i : Instr} (h : i.WellTyped ctx) :
    ∀ o ∈ i.written, o.WellTyped ctx := by
  cases i with
  | assign => exact h.1.written
  | arrayStore array =>
    have harray : (Operand.var array).WellTyped ctx := trivial
    exact List.forall_mem_cons.mpr
      ⟨harray, List.forall_mem_cons.mpr ⟨h.1, List.forall_mem_singleton.mpr h.2.1⟩⟩
  | putField => exact List.forall_mem_cons.mpr ⟨h.1, List.forall_mem_singleton.mpr h.2.1⟩
  | call => exact h.operands
  | branch => exact List.forall_mem_singleton.mpr h.1
  | ret value =>
    cases value with
    | none => exact List.forall_mem_nil _
    | some => exact List.forall_mem_singleton.mpr h
  | goto | label => exact List.forall_mem_nil _

/-- Where there is no object and no field is mentioned, a well-typed instruction has nothing to do
with an object. -/
theorem Instr.WellTyped.isObjectless {i : Instr} (h : i.WellTyped ctx)
    (hstatic : ctx.isStatic = true) (hfields : ∀ f, i.mention? ≠ some (.field f)) :
    i.IsObjectless where
  this _ ho := Bool.false_ne_true ((h.written _ ho).symm.trans hstatic)
  getField _ _ field hi := hfields field (hi ▸ rfl)
  putField _ field _ hi := hfields field (hi ▸ rfl)

end Ir

variable {source : String} {root root' n : Node} {table : SymbolTable} {options : CompileOptions}
  {unit : ClassUnit}

/-- A method in whose scope there is no object mentions no field. -/
theorem Node.field_not_mem_mentions {head : MethodHead} {params locals body : List Node}
    (hn : n.WellFormed) (hkind : n.kind = .methodDecl head params locals body)
    (hstatic : head.isStatic = true) (f : Var) : .field f ∉ n.mentions table := by
  intro hf
  obtain ⟨⟨sc, d, c⟩, hs, hf⟩ := List.mem_flatMap.mp hf
  obtain ⟨rfl, -⟩ := of_mem_sitesWithin_method hn hkind hs
  cases Scope.asksFor_of_mem_mentionsAt hf with
  | field h => exact Bool.false_ne_true ((Scope.isStatic_of_lookup? h).symm.trans hstatic)

/-- **Static methods have nothing to do with an object**: in the code of an accepted program, no
operand in them is `this`, and no field is read or written. -/
theorem objectless_of_isStatic (h : Accepted source root table)
    (hroot' : options.Lowers table root root') (hlower : lower table root' = .ok unit) :
    ∀ m ∈ unit.methods, m.isStatic = true → ∀ i ∈ m.code, i.IsObjectless := by
  intro m hm hstatic i hi
  obtain ⟨n, hn, s, s', _, hrun⟩ := exists_of_forall₂ (forall₂_lowerMethod hlower) hm
  obtain ⟨head, _, _, _, hkind, happroves⟩ := (h.sound_of_lowers hroot').1.approves hn
  obtain ⟨_, _, _, _, _, hkind', -, -, hstatic', -⟩ := lowerMethod_eq_ok hrun
  cases hkind.symm.trans hkind'
  have hclass := h.isIdentifier_className
  have hrows : (Scope.ofMethod table head).TakesRowsInArrays := fun _ => h.isArray_of_isVarargs
  obtain ⟨temps, -, hcode⟩ := codeIn_of_approves hclass hrows hkind happroves hrun
  have hmentions := lowerMethod_mentions hclass hrows hkind happroves hrun
  have hhead : head.isStatic = true := hstatic'.symm.trans hstatic
  refine (hcode i hi).1.isObjectless hhead fun f hf => ?_
  exact Node.field_not_mem_mentions happroves.wellFormed hkind hhead f
    ((hmentions _).mp (List.mem_filterMap.mpr ⟨i, hi, hf⟩))

/-- `main` has a variable with the name of a field. -/
theorem objectless_of_isStatic_main : ∃ root table unit,
    Accepted "class A{int n;static void main(String[] a){int n;n=a.length;}int f(){return n;}}"
      root table ∧
    lower table root = .ok unit ∧ (∃ m ∈ unit.methods, m.isStatic = true) ∧
      ∀ m ∈ unit.methods, m.isStatic = true → ∀ i ∈ m.code, i.IsObjectless := by
  obtain ⟨root, table, h, hp⟩ := Accepted.exists_of_any
    "class A{int n;static void main(String[] a){int n;n=a.length;}int f(){return n;}}"
    (fun root table => match lower table root with
      | .ok unit => unit.methods.any (·.isStatic)
      | .error _ => false)
    (by decide +kernel)
  split at hp
  · rename_i unit hlower
    have hroot : (({} : CompileOptions).Lowers table root root) := rfl
    exact ⟨root, table, unit, h, hlower, List.any_eq_true.mp hp,
      objectless_of_isStatic h hroot hlower⟩
  · cases hp

/-! ## The sizes of arrays -/

/-- Only `int` is lowered to the type of integers. -/
theorem Ir.IrType.ofTy_eq_int32 {t : Ty} : IrType.ofTy t = .int32 ↔ t = .int := by
  constructor
  · intro h
    obtain ⟨name, isArray⟩ := t
    cases isArray with
    | true => cases h
    | false =>
      simp only [ofTy, Bool.false_eq_true, if_false, ofName] at h
      split at h <;> cases h
      rfl
  · rintro rfl
    rfl

/-- The sizes of all new arrays in the code are integers. -/
def Ir.HasIntSizes (code : Code) : Prop :=
  ∀ dest size t, .assign dest (.newArray size t) ∈ code → size.type = .int32

/-- All expressions for the size of an array in the method are integers. -/
def Node.HasIntSizes (t : SymbolTable) (m : Node) : Prop :=
  ∀ s ∈ sitesWithin t m none .int, ∀ element size, s.node.kind = .newArray element size →
    s.scope.typeOf? .int size = some .int

theorem Ir.hasIntSizes_iff {code : Code} :
    HasIntSizes code ↔ ∀ u, .newArray u ∈ mentions code → u = .int32 := by
  constructor
  · intro h u hu
    obtain ⟨i, hi, hu⟩ := List.mem_filterMap.mp hu
    cases i with
    | assign dest value =>
      cases value with
      | newArray size t =>
        cases hu
        exact h dest size t hi
      | _ => cases hu
    | _ => cases hu
  · exact fun h dest size t hi => h size.type (List.mem_filterMap.mpr ⟨_, hi, rfl⟩)

/-- The sizes that a site asks for are integers unless it is a new array with another size. -/
theorem Scope.newArray_mem_mentionsAt {sc : Scope} {d : Ty} {u : IrType}
    (hu : .newArray u ∈ sc.mentionsAt d n) : u = .int32 ∨ ∃ element size,
      n.kind = .newArray element size ∧ u = .ofTy ((sc.typeOf? .int size).getD .int) := by
  cases asksFor_of_mem_mentionsAt hu with
  | newArray hkind => exact .inr ⟨_, _, hkind, rfl⟩
  | row => exact .inl rfl

theorem Node.hasIntSizes_iff (hclass : IsIdentifier table.className) {head : MethodHead}
    {params locals body : List Node} (hkind : n.kind = .methodDecl head params locals body)
    (h : (Scope.ofMethod table head).Approves n) :
    n.HasIntSizes table ↔ ∀ u, .newArray u ∈ n.mentions table → u = .int32 := by
  constructor
  · intro hsizes u hu
    obtain ⟨s, hs, hu⟩ := List.mem_flatMap.mp hu
    rcases Scope.newArray_mem_mentionsAt hu with hu | ⟨element, size, hkind, rfl⟩
    · exact hu
    · rw [hsizes s hs element size hkind]
      rfl
  · intro hmentions s hs element size hsize
    obtain ⟨hscope, hmem⟩ := of_mem_sitesWithin_method h.wellFormed hkind hs
    obtain ⟨sc, d, ⟨i, p, k⟩⟩ := s
    obtain rfl : sc = _ := hscope
    obtain rfl : k = _ := hsize
    have happroves := h.of_mem_preorder hmem (preorder_infix_of_mem_preorder hmem).subset
    have hexpr : size.IsExpr := happroves.wellFormed.isExpr_of_mem_children rfl List.mem_cons_self
    obtain ⟨t, ht, -⟩ :=
      Scope.hasLoweredType rfl hclass (happroves.child List.mem_cons_self) hexpr .int
    have hu := hmentions _ (List.mem_flatMap.mpr ⟨_, hs, List.mem_cons_self⟩)
    rw [ht, Option.getD_some, IrType.ofTy_eq_int32] at hu
    rw [ht, hu]

/-- **Which sizes of arrays are integers**: those in the code of an accepted program if and only if
the expressions are that are lowered to them. Where the program is optimized, it is enough that the
expressions in the source are. -/
theorem int32_sizes_iff (h : Accepted source root table)
    (hroot' : options.Lowers table root root') (hlower : lower table root' = .ok unit) :
    ((∀ m ∈ unit.methods, HasIntSizes m.code) ↔ ∀ n ∈ root'.methods, n.HasIntSizes table) ∧
      ((∀ n ∈ root.methods, n.HasIntSizes table) → ∀ m ∈ unit.methods, HasIntSizes m.code) := by
  have hclass := h.isIdentifier_className
  constructor
  · have hiff : List.Forall₂ (fun n m => n.HasIntSizes table ↔ HasIntSizes m.code) root'.methods
        unit.methods := by
      refine ((List.forall₂_and_left _ _).mpr ⟨fun n hn => hn,
        h.forall₂_mentions_of_lowers hroot' hlower⟩).imp fun n m ⟨hn, hmentions⟩ => ?_
      obtain ⟨head, params, locals, body, hkind, happroves⟩ :=
        (h.sound_of_lowers hroot').1.approves hn
      rw [Node.hasIntSizes_iff hclass hkind happroves, hasIntSizes_iff]
      exact forall_congr' fun u => imp_congr_left (hmentions _).symm
    exact (forall_mem_iff_of_forall₂ hiff).symm
  · intro hsizes m hm
    obtain ⟨n, hn, -, n', hsteps, s, s', hrun⟩ :=
      exists_of_forall₂ (h.forall₂_lowered hroot' hlower) hm
    obtain ⟨head, params, locals, body, hkind, happroves⟩ := h.approves hn
    refine hasIntSizes_iff.mpr fun u hu => ?_
    refine (Node.hasIntSizes_iff hclass hkind happroves).mp (hsizes n hn) u ?_
    exact (h.thins_of_lowered hn hsteps hrun).subset hu

/-- A sum, the elements of a literal and a row of arguments give sizes. -/
theorem int32_sizes_iff_row : ∃ root table unit,
    Accepted "import io;class A{void f(int k,int... b){b=new int[k+io.g()];b=[1,2];this.f(1,2,3);}}"
      root table ∧
    lower table root = .ok unit ∧
    ((∀ m ∈ unit.methods, HasIntSizes m.code) ↔ ∀ n ∈ root.methods, n.HasIntSizes table) ∧
      ((∀ n ∈ root.methods, n.HasIntSizes table) → ∀ m ∈ unit.methods, HasIntSizes m.code) := by
  obtain ⟨root, table, h, hp⟩ := Accepted.exists_of_any
    "import io;class A{void f(int k,int... b){b=new int[k+io.g()];b=[1,2];this.f(1,2,3);}}"
    (fun root table => (lower table root).isOk) (by decide +kernel)
  cases hlower : lower table root with
  | error e => simp [hlower, Except.isOk, Except.toBool] at hp
  | ok unit =>
    have hroot : (({} : CompileOptions).Lowers table root root) := rfl
    exact ⟨root, table, unit, h, hlower, int32_sizes_iff h hroot hlower⟩

/-- A truth value is accepted as the size of an array. -/
theorem not_int32_sizes_boolean : ∃ root table unit,
    Accepted "class A{void f(){int[] a;a=new int[true];}}" root table ∧
    lower table root = .ok unit ∧ ¬∀ m ∈ unit.methods, HasIntSizes m.code := by
  obtain ⟨root, table, h, hp⟩ := Accepted.exists_of_any
    "class A{void f(){int[] a;a=new int[true];}}"
    (fun root table => match lower table root with
      | .ok unit => unit.methods.any fun m => (mentions m.code).contains (.newArray .boolean)
      | .error _ => false)
    (by decide +kernel)
  split at hp
  · rename_i unit hlower
    refine ⟨root, table, unit, h, hlower, fun hsizes => ?_⟩
    obtain ⟨m, hm, hsize⟩ := List.any_eq_true.mp hp
    cases hasIntSizes_iff.mp (hsizes m hm) .boolean (List.contains_iff_mem.mp hsize)
  · cases hp

end MiniJava
