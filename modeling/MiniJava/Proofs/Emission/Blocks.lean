import MiniJava.Proofs.Emission.Registers
import MiniJava.Proofs.Emission.Tracking

/-!
# The blocks of a method

The code of a method consists of blocks, one for each instruction of three-address code. A block
first puts the operands of the instruction on the stack, and then does with them what the
instruction is for: `Frame.block` is that code as a function of the instruction and the number of the
next comparison.

`Frame.instr` makes this code (`Frame.instr_makes`) if the operands are values, members are used of
objects only, and classes called statically (`Ir.Instr.hasBlock`); nothing else can go wrong in a
method, whose variables all have registers. So an emitted method is known as a whole
(`emitMethod_eq_ok`).
-/

namespace MiniJava

open Ir (BinOp Call IrType Operand Rhs Var)

/-! ## Instructions with a block -/

namespace Ir

/-- The operand is a value. -/
def Operand.isValue : Operand → Bool
  | classRef _ => false
  | _ => true

/-- The values are objects of a class. -/
def IrType.isClass : IrType → Bool
  | classRef _ => true
  | _ => false

/-- The operand is an object whose members can be used. -/
def Operand.isObject (o : Operand) : Bool := o.type.isClass && o.isValue

/-- A static call has a class as its receiver, and any other an object. -/
def Call.hasReceiver (c : Call) : Bool :=
  match c.invocation, c.target with
  | .static, .classRef _ => true
  | .static, _ => false
  | _, target => target.isObject

/-- The call has a receiver of the kind that it needs, and its arguments are values. -/
def Call.hasBlock (c : Call) : Bool := c.hasReceiver && c.arguments.all Operand.isValue

/-- The operands are values, and members are used of objects. -/
def Rhs.hasBlock : Rhs → Bool
  | single value => value.isValue
  | binary _ left right => left.isValue && right.isValue
  | not operand => operand.isValue
  | call c => c.hasBlock
  | getField object _ => object.isObject
  | arrayLoad _ index => index.isValue
  | arrayLength _ | newObject _ => true
  | newArray size _ => size.isValue

/-- The operands are values, and members are used of objects. -/
def Instr.hasBlock : Instr → Bool
  | assign _ value => value.hasBlock
  | arrayStore _ index value => index.isValue && value.isValue
  | putField object _ value => object.isObject && value.isValue
  | call c => c.hasBlock
  | branch condition _ => condition.isValue
  | ret (some value) => value.isValue
  | goto _ | ret none | label _ => true

/-! ### Operands -/

/-- The values that a call takes: its receiver, unless it is static, and its arguments. -/
def Call.operands (c : Call) : List Operand :=
  (if c.invocation = .static then [] else [c.target]) ++ c.arguments

/-- The values from which a value is computed. -/
def Rhs.operands : Rhs → List Operand
  | single value => [value]
  | binary _ left right => [left, right]
  | not operand => [operand]
  | call c => c.operands
  | getField object _ => [object]
  | arrayLoad array index => [.var array, index]
  | arrayLength array => [.var array]
  | newObject _ => []
  | newArray size _ => [size]

/-- The values that an instruction takes. -/
def Instr.operands : Instr → List Operand
  | assign _ value => value.operands
  | arrayStore array index value => [.var array, index, value]
  | putField object _ value => [object, value]
  | call c => c.operands
  | branch condition _ => [condition]
  | ret value => value.toList
  | goto _ | label _ => []

/-- How many comparisons there are. -/
def Instr.comparisons : Instr → Nat
  | assign _ (.binary op _ _) => if op.isComparison then 1 else 0
  | _ => 0

end Ir

namespace Jvm

/-! ## The code of a block -/

/-- The path of the class whose objects are of a type. No member of another type is used. -/
def ClassNames.owner (cs : ClassNames) : IrType → String
  | .classRef name => cs.classPath name
  | t => t.text

theorem ClassNames.jtype_eq_void {cs : ClassNames} {t : IrType} :
    cs.jtype t = .void ↔ t = .void := by
  cases t <;> simp [ClassNames.jtype]

/-- Replace two values by the truth value of a comparison. -/
def comparing (c : Comparison) (n : Nat) : List Instr :=
  [.ifCompare c ("cmp_true_" ++ toString n), .const 0, .goto ("cmp_end_" ++ toString n),
    .label ("cmp_true_" ++ toString n), .const 1, .label ("cmp_end_" ++ toString n)]

/-- Replace two values by the result of an operation. -/
def operating (op : BinOp) (isReference : Bool) (n : Nat) : List Instr :=
  match op with
  | .add => [.arith .add]
  | .sub => [.arith .sub]
  | .mul => [.arith .mul]
  | .div => [.arith .div]
  | op => comparing (Frame.comparison op isReference) n

namespace Frame

variable (fr : Frame)

/-- The register of a variable that has one. -/
def slot (v : Var) : UInt16 := (fr.registers.get? v.name).getD 0

/-- Put an operand on the stack. A class is never put there, so any instruction will do for it. -/
def loading : Operand → Instr
  | .literal value _ => .const value
  | .var v => .load (.ofType v.type) (fr.slot v)
  | .this _ => .load .ref 0
  | .classRef _ => .const 0

/-- Take a value from the stack into a variable. -/
def storing (v : Var) : Instr := .store (.ofType v.type) (fr.slot v)

/-- Call a method with the values on the stack. -/
def invoking (c : Call) : Instr :=
  .invoke c.invocation
    ⟨fr.classes.owner c.target.type, c.method, fr.classes.methodType c.signature c.returnType⟩
    c.arguments.length

theorem pops_invoking (c : Call) : (fr.invoking c).pops = c.operands.length := by
  unfold invoking Call.operands
  cases hc : c.invocation <;> simp [Instr.pops]

theorem pushes_invoking (c : Call) :
    (fr.invoking c).pushes = if c.returnType = .void then 0 else 1 := by
  simp only [invoking, Instr.pushes, ClassNames.methodType, ClassNames.jtype_eq_void]

/-- The field of an object. -/
def member (object : Operand) (field : Var) : FieldRef :=
  ⟨fr.classes.owner object.type, field.name, fr.classes.jtype field.type⟩

/-- Replace the values on the stack by the one that is computed from them. -/
def computing (n : Nat) : Rhs → List Instr
  | .single _ => []
  | .binary op left right => operating op (left.type.isReference || right.type.isReference) n
  | .not _ => [.const 1, .xor]
  | .call c => [fr.invoking c]
  | .getField object field => [.getField (fr.member object field)]
  | .arrayLoad array _ => [.loadElement (.ofType array.type.element)]
  | .arrayLength _ => [.arrayLength]
  | .newObject className => [.newObject (fr.classes.classPath className)]
  | .newArray _ t => [.newArray (fr.classes.component t.element)]

/-- Do with the values on the stack what an instruction is for. -/
def finishing (n : Nat) : Ir.Instr → List Instr
  | .assign dest value => fr.computing n value ++ [fr.storing dest]
  | .arrayStore array _ _ => [.storeElement (.ofType array.type.element)]
  | .putField object field _ => [.putField (fr.member object field)]
  | .call c => if c.returnType = .void then [fr.invoking c] else [fr.invoking c, .pop]
  | .goto target => [.goto target]
  | .branch _ target => [.ifTrue target]
  | .ret none => [.ret]
  | .ret (some value) => [.retValue (.ofType value.type)]
  | .label name => [.label name]

/-- The code for an instruction, with this number for its comparison. -/
def block (n : Nat) (i : Ir.Instr) : List Instr :=
  i.operands.map fr.loading ++ fr.finishing n i

/-- The code for a row of instructions, with numbers for comparisons from this one on. -/
def blocks (n : Nat) : Ir.Code → List (List Instr)
  | [] => []
  | i :: is => fr.block n i :: blocks (n + i.comparisons) is

/-- Each instruction in a row of blocks is in one of them. -/
theorem exists_of_mem_blocks {fr : Frame} {n : Nat} {is : Ir.Code} {j : Instr}
    (hj : j ∈ (fr.blocks n is).flatten) :
    ∃ i ∈ is, ∃ n, j ∈ fr.block n i := by
  induction is generalizing n with
  | nil => cases hj
  | cons i is ih =>
    rcases List.mem_append.mp hj with hj | hj
    · exact ⟨i, List.mem_cons_self, n, hj⟩
    · obtain ⟨i', hi', hj⟩ := ih hj
      exact ⟨i', List.mem_cons_of_mem i hi', hj⟩

end Frame

/-! ## Making a block -/

namespace Frame

variable {fr : Frame} {s : EmitState}

/-- The variables have registers. -/
def HasRegisters (fr : Frame) (vs : List Var) : Prop := ∀ v ∈ vs, (fr.registers.get? v.name).isSome

theorem register_makes {v : Var} (hv : (fr.registers.get? v.name).isSome) :
    (fr.register v).Makes s true (fr.slot v) s := by
  unfold register slot
  obtain ⟨r, hr⟩ := Option.isSome_iff_exists.mp hv
  rw [hr]
  exact .pure r s

theorem loadVar_makes {v : Var} (hv : (fr.registers.get? v.name).isSome) :
    (fr.loadVar v).Makes s true [fr.loading (.var v)] (s.after [fr.loading (.var v)] 0) :=
  (register_makes hv).andThen (push_makes rfl)

theorem store_makes {v : Var} (hv : (fr.registers.get? v.name).isSome) :
    (fr.store v).Makes s true [fr.storing v] (s.after [fr.storing v] 0) :=
  (register_makes hv).andThen (push_makes rfl)

theorem load_makes {o : Operand} (hvars : fr.HasRegisters o.vars) :
    (fr.load o).Makes s o.isValue [fr.loading o] (s.after [fr.loading o] 0) := by
  cases o with
  | var v => exact loadVar_makes (hvars v List.mem_cons_self)
  | literal | «this» => exact push_makes rfl
  | classRef name => exact .throw rfl

theorem loadAll_makes {os : List Operand} (hvars : fr.HasRegisters (os.flatMap Operand.vars)) :
    (fr.loadAll os).Makes s (os.all Operand.isValue) (os.map fr.loading)
      (s.after (os.map fr.loading) 0) := by
  induction os generalizing s with
  | nil => exact .pure [] s
  | cons o os ih =>
    obtain ⟨ho, hos⟩ := List.forall_mem_append.mp hvars
    exact (load_makes ho).bind (ih hos).last

theorem owner_makes (o : Operand) (member : String) :
    (fr.owner o member).Makes s o.type.isClass (fr.classes.owner o.type) s := by
  unfold owner
  cases o.type with
  | classRef name => exact .pure _ s
  | _ => exact .throw rfl

theorem fieldRef_makes (o : Operand) (field : Var) :
    (fr.fieldRef o field).Makes s o.type.isClass (fr.member o field) s :=
  (owner_makes o field.name).andThen (.pure _ s)

/-- The class whose method is called, the code for the receiver, and how many receivers it puts on
the stack. -/
def receiver (fr : Frame) (c : Call) : Emit (String × List Instr × Nat) :=
  match c.invocation, c.target with
  | .static, .classRef name => return (fr.classes.classPath name, [], 0)
  | .static, target => throw (.invalidReceiver c.method target.type.text fr.method)
  | _, target => do
    let owner ← fr.owner target c.method
    return (owner, ← fr.load target, 1)

theorem call_eq (c : Call) : fr.call c = do
    let (owner, receiver, receivers) ← fr.receiver c
    let arguments ← fr.loadAll c.arguments
    let invoke ← push (.invoke c.invocation
      ⟨owner, c.method, fr.classes.methodType c.signature c.returnType⟩ c.arguments.length)
      (receivers + c.arguments.length) (if c.returnType = .void then 0 else 1)
    return receiver ++ arguments ++ invoke := by
  obtain ⟨invocation, target, method, arguments, returnType, paramTypes⟩ := c
  cases invocation <;> cases target <;> simp [call, receiver]

/-- What a call takes from the stack before its arguments. -/
def receivers (c : Call) : List Operand := if c.invocation = .static then [] else [c.target]

theorem receiver_makes {c : Call} (hvars : fr.HasRegisters c.target.vars) :
    (fr.receiver c).Makes s c.hasReceiver
      (fr.classes.owner c.target.type, (receivers c).map fr.loading, (receivers c).length)
      (s.after ((receivers c).map fr.loading) 0) := by
  obtain ⟨invocation, target, method, arguments, returnType, paramTypes⟩ := c
  have hobject : (do
      let owner ← fr.owner target method
      return (owner, ← fr.load target, 1)).Makes s target.isObject
        (fr.classes.owner target.type, [fr.loading target], 1) (s.after [fr.loading target] 0) :=
    (owner_makes target method).bind ((load_makes hvars).andThen (.pure _ _))
  cases invocation with
  | static =>
    cases target with
    | classRef name => exact .pure _ s
    | _ => exact .throw rfl
  | _ => exact hobject

/-- The tracker is told of a call what the call takes and puts. -/
theorem step_invoking (d : StackDepth) (c : Call) :
    d.step (fr.invoking c) = d.apply ((receivers c).length + c.arguments.length)
      (if c.returnType = .void then 0 else 1) := by
  change d.apply (fr.invoking c).pops (fr.invoking c).pushes = _
  rw [pops_invoking, pushes_invoking, Call.operands, List.length_append]
  rfl

theorem call_makes {c : Call} (hvars : fr.HasRegisters c.vars) :
    (fr.call c).Makes s c.hasBlock (c.operands.map fr.loading ++ [fr.invoking c])
      (s.after (c.operands.map fr.loading ++ [fr.invoking c]) 0) := by
  obtain ⟨htarget, hargs⟩ := List.forall_mem_append.mp hvars
  rw [call_eq, Call.operands, List.map_append, s.after_append _ _ 0 0, s.after_append _ _ 0 0]
  exact (receiver_makes htarget).bind
    ((loadAll_makes hargs).andThen (push_makes (step_invoking _ c)).last)

theorem compare_makes (c : Comparison) :
    (compare c).Makes s true (comparing c s.comparisons) (s.after (comparing c s.comparisons) 1) :=
  ⟨fun _ => rfl, nofun⟩

theorem operate_makes (op : BinOp) (isReference : Bool) :
    (operate op isReference).Makes s true (operating op isReference s.comparisons)
      (s.after (operating op isReference s.comparisons) (if op.isComparison then 1 else 0)) := by
  cases op with
  | add | sub | mul | div => exact push_makes rfl
  | _ => exact compare_makes _

/-- How many comparisons there are in the computation of a value. -/
theorem rhs_makes {r : Rhs} (dest : Var) (hvars : fr.HasRegisters r.vars) :
    (fr.rhs r).Makes s r.hasBlock (r.operands.map fr.loading ++ fr.computing s.comparisons r)
      (s.after (r.operands.map fr.loading ++ fr.computing s.comparisons r)
        (Ir.Instr.assign dest r).comparisons) := by
  cases r with
  | single value => exact load_makes hvars
  | binary op left right =>
    obtain ⟨hl, hr⟩ := List.forall_mem_append.mp hvars
    exact (load_makes hl).bind ((load_makes hr).andThen (operate_makes op _).last)
  | not operand =>
    exact (load_makes hvars).andThen ((push_makes rfl).andThen (push_makes rfl).last)
  | call c => exact call_makes hvars
  | getField object field =>
    exact (fieldRef_makes object field).bind ((load_makes hvars).andThen (push_makes rfl).last)
  | arrayLoad array index =>
    obtain ⟨harray, hvars⟩ := List.forall_mem_cons.mp hvars
    exact (loadVar_makes harray).bind ((load_makes hvars).andThen (push_makes rfl).last)
  | arrayLength array =>
    exact (loadVar_makes (hvars array List.mem_cons_self)).andThen (push_makes rfl).last
  | newObject className => exact push_makes rfl
  | newArray size t => exact (load_makes hvars).andThen (push_makes rfl).last

/-- **The code for an instruction is its block**, if it has one, and the tracker follows the
block. -/
theorem instr_makes {i : Ir.Instr} (hvars : fr.HasRegisters i.vars) :
    (fr.instr i).Makes s i.hasBlock (fr.block s.comparisons i)
      (s.after (fr.block s.comparisons i) i.comparisons) := by
  cases i with
  | assign dest value =>
    obtain ⟨hdest, hvars⟩ := List.forall_mem_cons.mp hvars
    rw [block, finishing, ← List.append_assoc, ← Nat.add_zero (Ir.Instr.comparisons _),
      s.after_append]
    exact (rhs_makes dest hvars).andThen (store_makes hdest).last
  | arrayStore array index value =>
    obtain ⟨harray, hvars⟩ := List.forall_mem_cons.mp hvars
    obtain ⟨hindex, hvalue⟩ := List.forall_mem_append.mp hvars
    exact (loadVar_makes harray).bind
      ((load_makes hindex).bind ((load_makes hvalue).andThen (push_makes rfl).last))
  | putField object field value =>
    obtain ⟨hobject, hvalue⟩ := List.forall_mem_append.mp hvars
    rw [Ir.Instr.hasBlock, Operand.isObject, Bool.and_assoc]
    exact (fieldRef_makes object field).bind
      ((load_makes hobject).bind ((load_makes hvalue).andThen (push_makes rfl).last))
  | call c =>
    change (fr.instr (.call c)).Makes s _ _ (s.after _ 0)
    refine (call_makes hvars).andThen ?_
    by_cases hvoid : c.returnType = .void
    · simpa [hvoid, block, finishing, Ir.Instr.operands, Ir.Instr.comparisons] using
        Emit.Makes.pure _ _
    · have hpop : fr.block s.comparisons (.call c) =
          c.operands.map fr.loading ++ [fr.invoking c] ++ [.pop] := by
        simp [block, finishing, Ir.Instr.operands, hvoid]
      rw [hpop, if_neg hvoid, s.after_append _ [.pop] 0 0]
      exact (push_makes rfl).last
  | branch condition target => exact (load_makes hvars).andThen (pushBranch_makes rfl).last
  | goto target => exact goto_makes target
  | label name => exact setLabel_makes name
  | ret value =>
    cases value with
    | none => exact pushReturn_makes rfl
    | some value => exact (load_makes hvars).andThen (pushReturn_makes rfl).last

/-- **The code for a row of instructions is that of their blocks**, if all of them have one. -/
theorem code_makes {is : Ir.Code} (hvars : ∀ i ∈ is, fr.HasRegisters i.vars) :
    ∃ n, (is.mapM fr.instr).Makes s (is.all Ir.Instr.hasBlock) (fr.blocks s.comparisons is)
      (s.after (fr.blocks s.comparisons is).flatten n) := by
  induction is generalizing s with
  | nil => exact ⟨0, .pure [] s⟩
  | cons i is ih =>
    obtain ⟨hi, his⟩ := List.forall_mem_cons.mp hvars
    obtain ⟨n, h⟩ := ih his (s := s.after (fr.block s.comparisons i) i.comparisons)
    refine ⟨i.comparisons + n, ?_⟩
    rw [List.mapM_cons, blocks, List.flatten_cons, s.after_append]
    exact (instr_makes hi).bind (h.andThen (.pure _ _))

theorem code_eq (is : Ir.Code) : fr.code is = List.flatten <$> is.mapM fr.instr := by
  induction is with
  | nil => rfl
  | cons i is ih =>
    rw [code, ih, List.mapM_cons]
    simp

end Frame

/-! ## Methods -/

/-- The frame of a method. -/
def Frame.ofMethod (classes : ClassNames) (m : Ir.Method) : Frame := ⟨classes, .ofMethod m, m.name⟩

section Method

variable {classes : ClassNames} {limit : Option Nat} {m : Ir.Method} {e : EmittedMethod}

/-- The variables of a method have registers. -/
theorem hasRegisters_ofMethod (classes : ClassNames) (m : Ir.Method) :
    (Frame.ofMethod classes m).HasRegisters m.vars := by
  obtain ⟨names, hnames, hmem, -⟩ := m.exists_numbers
  intro v hv
  have hname := (hmem v.name).mpr ⟨v, hv, rfl⟩
  simp [Frame.ofMethod, hnames.get?, hname]

theorem code_makes_ofMethod (classes : ClassNames) (m : Ir.Method) :
    ∃ n, (m.code.mapM (Frame.ofMethod classes m).instr).Makes {} (m.code.all Ir.Instr.hasBlock)
      ((Frame.ofMethod classes m).blocks 0 m.code)
      (EmitState.after {} ((Frame.ofMethod classes m).blocks 0 m.code).flatten n) :=
  Frame.code_makes (s := {}) fun i hi v hv => hasRegisters_ofMethod classes m v
    (List.mem_append_right _ (List.mem_flatMap.mpr ⟨i, hi, hv⟩))

/-- The code of a method is that of its blocks, and the tracker followed it from the start. -/
theorem flatten_makes_ofMethod (classes : ClassNames) (m : Ir.Method) :
    ∃ n, ((Frame.ofMethod classes m).code m.code).Makes {} (m.code.all Ir.Instr.hasBlock)
      ((Frame.ofMethod classes m).blocks 0 m.code).flatten
      (EmitState.after {} ((Frame.ofMethod classes m).blocks 0 m.code).flatten n) := by
  obtain ⟨n, hmakes⟩ := code_makes_ofMethod classes m
  rw [Frame.code_eq, map_eq_pure_bind]
  exact ⟨n, hmakes.andThen (.pure _ _)⟩

/-- A method with the code of its blocks. -/
def emitted (classes : ClassNames) (m : Ir.Method) : EmittedMethod :=
  let code := ((Frame.ofMethod classes m).blocks 0 m.code).flatten
  ⟨m.name, m.isPublic, m.isStatic, classes.methodType (m.params.map Var.type) m.returnType,
    stackLimit code, (Registers.ofMethod m).size, code⟩

theorem emitMethod_of_lt (classes : ClassNames) {l : Nat} (h : l < (Registers.ofMethod m).size) :
    emitMethod classes (some l) m =
      .error (.registerLimit m.name (Registers.ofMethod m).size l) := by
  simp only [emitMethod, h, if_true]
  rfl

/-- With registers enough the method is what the run over its code makes of it. -/
theorem emitMethod_of_le (classes : ClassNames)
    (h : ∀ l, limit = some l → (Registers.ofMethod m).size ≤ l) :
    emitMethod classes limit m =
      (fun r => { emitted classes m with stackLimit := r.2.stack.max, code := r.1 }) <$>
        ((Frame.ofMethod classes m).code m.code).run {} := by
  unfold emitMethod
  cases limit with
  | none => simp [emitted, Frame.ofMethod]
  | some l => simp [Nat.not_lt.mpr (h l rfl), emitted, Frame.ofMethod]

/-- **A method is emitted if its instructions have blocks and there are registers enough**, and then
its code is that of the blocks, and the declared depth of the stack is that of its code. -/
theorem emitMethod_eq_ok : emitMethod classes limit m = .ok e ↔
    (∀ l, limit = some l → (Registers.ofMethod m).size ≤ l) ∧
      m.code.all Ir.Instr.hasBlock = true ∧ e = emitted classes m := by
  obtain ⟨n, hmakes⟩ := flatten_makes_ofMethod classes m
  by_cases hlimit : ∀ l, limit = some l → (Registers.ofMethod m).size ≤ l
  · rw [emitMethod_of_le classes hlimit]
    cases hall : m.code.all Ir.Instr.hasBlock with
    | true =>
      rw [hmakes.run hall]
      exact ⟨fun h => ⟨hlimit, rfl, (Except.ok.inj h).symm⟩,
        fun h => congrArg Except.ok h.2.2.symm⟩
    | false =>
      obtain ⟨err, -, herr⟩ := hmakes.fails hall
      rw [herr]
      constructor
      · intro h
        cases h
      · intro h
        cases h.2.1
  · obtain ⟨l, hl⟩ := not_forall.mp hlimit
    obtain ⟨rfl, hlt⟩ := Classical.not_imp.mp hl
    rw [emitMethod_of_lt classes (Nat.not_le.mp hlt)]
    constructor
    · intro h
      cases h
    · intro h
      exact absurd h.1 hlimit

/-- **The declared depth is the one that the instructions have by their meaning.** The numbers that
the tracker was told are those of the instructions in the code. -/
theorem stackLimit_of_emitMethod (h : emitMethod classes limit m = .ok e) :
    e.stackLimit = stackLimit e.code := by
  obtain ⟨-, -, rfl⟩ := emitMethod_eq_ok.mp h
  rfl

end Method

end Jvm

end MiniJava
