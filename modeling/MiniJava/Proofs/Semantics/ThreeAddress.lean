import MiniJava.Ir.OfExpression
import MiniJava.Proofs.Semantics.Code
import MiniJava.Proofs.Semantics.Source

/-!
# The meaning of three-address code

Instructions work on variables. Each operation on a call, an object or an array is an effect that
carries what the instruction says of it: the types that it names are part of `Ir.Effect`, and
`Effect.erase` leaves what a method does by the meaning of its tree. A run may show less than the
effects themselves, so a machine has a `view` of them.

A constant of type `boolean` is a truth value. The name of a class is a value only as the receiver
of a static call.
-/

namespace MiniJava.Ir

/-! ## Effects -/

/-- What an instruction says of the method that it calls. -/
structure Callee where
  invocation : Invocation
  owner : IrType
  method : String
  signature : List IrType
  result : IrType
deriving DecidableEq, Repr

/-- The method that is called. -/
def Call.callee (c : Call) : Callee :=
  ⟨c.invocation, c.target.type, c.method, c.signature, c.returnType⟩

/-- What an instruction does beyond the variables. -/
inductive Effect where
  | call (callee : Callee) (target : Val) (arguments : List Val)
  | newObject (className : String)
  | newArray (type : IrType) (length : Val)
  | arrayLength (array : Val)
  | arrayLoad (element : IrType) (array index : Val)
  | arrayStore (element : IrType) (array index value : Val)
  | getField (owner : IrType) (object : Val) (field : Var)
  | putField (owner : IrType) (object : Val) (field : Var) (value : Val)
deriving DecidableEq, Repr

/-- What is left of an effect without the types of what it works on. -/
def Effect.erase : Effect → MiniJava.Effect
  | call callee target arguments => .call target callee.method arguments
  | newObject className => .newObject className
  | newArray t length => .newArray t length
  | arrayLength array => .arrayLength array
  | arrayLoad _ array index => .arrayLoad array index
  | arrayStore _ array index value => .arrayStore array index value
  | getField _ object field => .getField object field.name
  | putField _ object field value => .putField object field.name value

/-! ## Operations -/

/-- The operator of an operation. -/
def BinOp.toOperator : BinOp → BinaryOp
  | add => .add
  | sub => .sub
  | mul => .mul
  | div => .div
  | lt => .lt
  | gt => .gt
  | le => .le
  | ge => .ge
  | eq => .eq
  | ne => .ne

theorem BinOp.toOperator_of_ofOperator? {op : BinaryOp} {op' : BinOp}
    (h : BinOp.ofOperator? op = some op') : op'.toOperator = op := by
  cases op <;> cases h <;> rfl

/-- The value of an operand. -/
def Operand.value (this : Val) (vars : Vars) : Operand → Val
  | literal n .boolean => .bool (n ≠ 0)
  | literal n _ => .int n
  | var v => vars v.name
  | .this _ => this
  | classRef name => .cls name

/-- The effect of a call. -/
def Call.effect (c : Call) (this : Val) (vars : Vars) : Effect :=
  .call c.callee (c.target.value this vars) (c.arguments.map (Operand.value this vars))

section Machine

variable {ε : Type} (view : Effect → ε) (w : World ε Val)

/-- Compute what is assigned to a variable. -/
def Rhs.eval (vars : Vars) : Rhs → Act ε Val Val
  | single o => return o.value w.this vars
  | binary op left right =>
    .ofExcept (op.toOperator.eval (left.value w.this vars) (right.value w.this vars))
  | not o => (o.value w.this vars).not
  | call c => w.ask (view (c.effect w.this vars))
  | getField object field => w.ask (view (.getField object.type (object.value w.this vars) field))
  | arrayLoad array index =>
    w.ask (view (.arrayLoad array.type.element (vars array.name) (index.value w.this vars)))
  | arrayLength array => w.ask (view (.arrayLength (vars array.name)))
  | newObject className => w.ask (view (.newObject className))
  | newArray size t => w.ask (view (.newArray t (size.value w.this vars)))

/-- The name of a label. -/
def Instr.label? : Instr → Option String
  | label name => some name
  | _ => none

/-- Execute an instruction. -/
def Instr.act (i : Instr) (vars : Vars) : Act ε Val (Next Vars) :=
  match i with
  | assign dest value => do return .fall (vars.set dest.name (← value.eval view w vars))
  | arrayStore array index value => do
    let _ ← w.perform (view (.arrayStore array.type.element (vars array.name)
      (index.value w.this vars) (value.value w.this vars)))
    return .fall vars
  | putField object field value => do
    let _ ← w.perform (view (.putField object.type (object.value w.this vars) field
      (value.value w.this vars)))
    return .fall vars
  | call c => do
    let _ ← w.perform (view (c.effect w.this vars))
    return .fall vars
  | goto target => return .jump target vars
  | branch condition target => do
    return if ← (condition.value w.this vars).truth then .jump target vars else .fall vars
  | ret value => .stop (.returned (value.map (Operand.value w.this vars)))
  | label _ => return .fall vars

/-- Three-address code as a language. -/
def language : Language Instr Vars ε Val := ⟨Instr.label?, Instr.act view w⟩

end Machine

/-- The run of three-address code from given values of the variables, as far as it shows what the
run of a tree does. -/
def Method.run (m : Method) (w : World MiniJava.Effect Val) (vars : Vars) :
    Nat → Observation MiniJava.Effect Val :=
  (language Effect.erase w).observe m.code vars

/-! ## Effects are only added -/

section Grows

variable {ε : Type} {view : Effect → ε} {w : World ε Val}

theorem Rhs.eval_grows (rhs : Rhs) (vars : Vars) : (rhs.eval view w vars).Grows := by
  cases rhs with
  | single o => exact .pure _
  | binary op left right => exact .ofExcept _
  | not o =>
    refine .bind ?_ fun b => .pure _
    generalize o.value w.this vars = v
    cases v with
    | bool b => exact .pure b
    | _ => exact .stop _
  | _ => exact .ask w _

theorem Instr.act_grows (i : Instr) (vars : Vars) : (i.act view w vars).Grows := by
  cases i with
  | assign dest value => exact (value.eval_grows vars).bind fun _ => .pure _
  | branch condition target =>
    refine .bind ?_ fun b => .pure _
    generalize condition.value w.this vars = v
    cases v with
    | bool b => exact .pure b
    | _ => exact .stop _
  | goto target => exact .pure _
  | ret value => exact .stop _
  | label name => exact .pure _
  | _ => exact (Act.Grows.perform w _).bind fun _ => .pure _

theorem machine_language_grows (code : Code) : ((language view w).machine code).Grows :=
  Language.machine_grows Instr.act_grows code

end Grows

/-! ## Control flow -/

section Jumps

variable {ε : Type} {view : Effect → ε} {w : World ε Val} {code rest p q : Code} {vars : Vars}
  {h : List ε} {target : String}

/-- The machine comes from one place in the code to another and does nothing on the way. -/
abbrev Passes (view : Effect → ε) (w : World ε Val) (code p q : Code) (vars : Vars) (h : List ε) :
    Prop :=
  ((language view w).machine code).Leads ⟨p, vars, h⟩ (.running ⟨q, vars, h⟩)

theorem passes_label : Passes view w code (.label target :: rest) rest vars h :=
  .single (Language.step_of_fall rfl)

theorem passes_goto (hnodup : ((language view w).labels code).Nodup)
    (hrest : .label target :: rest <:+ code) :
    Passes view w code (.goto target :: q) rest vars h :=
  .single (Language.step_of_jump hnodup rfl rfl hrest)

theorem passes_branch_of_false {condition : Operand}
    (hv : condition.value w.this vars = .bool false) :
    Passes view w code (.branch condition target :: rest) rest vars h := by
  refine .single (Language.step_of_fall ?_)
  simp only [language, Instr.act, hv]
  rfl

theorem passes_branch_of_true (hnodup : ((language view w).labels code).Nodup)
    {condition : Operand} (hv : condition.value w.this vars = .bool true)
    (hrest : .label target :: rest <:+ code) :
    Passes view w code (.branch condition target :: q) rest vars h := by
  refine .single (Language.step_of_jump hnodup ?_ rfl hrest)
  simp only [language, Instr.act, hv]
  rfl

/-- A branch on what is no truth value ends the run. -/
theorem step_branch_of_stuck {condition : Operand}
    (hv : ∀ b, condition.value w.this vars ≠ .bool b) :
    ((language view w).machine code).step ⟨.branch condition target :: rest, vars, h⟩ =
      .finished .stuck h := by
  refine Language.step_of_error ?_
  simp only [language, Instr.act]
  generalize condition.value w.this vars = v at hv
  cases v with
  | bool b => exact absurd rfl (hv b)
  | _ => rfl

/-! ### Two cases -/

/-- Code for two cases, with labels in front of the second and behind both. -/
def cases (condition : Operand) (thenLabel endLabel : String) (elseCode thenCode : Code) : Code :=
  [.branch condition thenLabel] ++ elseCode ++ [.goto endLabel, .label thenLabel] ++ thenCode ++
    [.label endLabel]

section Cases

variable {condition : Operand} {thenLabel endLabel : String} {elseCode thenCode : Code}

theorem wraps_cases_of_true (hnodup : ((language view w).labels code).Nodup)
    (hv : condition.value w.this vars = .bool true) :
    (language view w).Wraps code (cases condition thenLabel endLabel elseCode thenCode) thenCode
      vars := by
  intro rest h hrest
  have hthen : .label thenLabel :: (thenCode ++ .label endLabel :: rest) <:+ code := by
    refine List.IsSuffix.trans ?_ hrest
    exact ⟨[.branch condition thenLabel] ++ elseCode ++ [.goto endLabel], by simp [cases]⟩
  refine ⟨.label endLabel :: rest, (List.suffix_cons _ _).trans hthen, ?_,
    fun _ _ => passes_label⟩
  simp only [cases, List.append_assoc, List.cons_append, List.nil_append]
  exact passes_branch_of_true hnodup hv hthen

theorem wraps_cases_of_false (hnodup : ((language view w).labels code).Nodup)
    (hv : condition.value w.this vars = .bool false) :
    (language view w).Wraps code (cases condition thenLabel endLabel elseCode thenCode) elseCode
      vars := by
  intro rest h hrest
  refine ⟨.goto endLabel :: .label thenLabel :: (thenCode ++ .label endLabel :: rest), ?_, ?_, ?_⟩
  · exact List.IsSuffix.trans ⟨[.branch condition thenLabel], by simp [cases]⟩ hrest
  · simp only [cases, List.append_assoc, List.cons_append, List.nil_append]
    exact passes_branch_of_false hv
  · refine fun _ _ => passes_goto hnodup (List.IsSuffix.trans ?_ hrest)
    exact ⟨[.branch condition thenLabel] ++ elseCode ++ [.goto endLabel, .label thenLabel] ++
      thenCode, by simp [cases]⟩

/-- **Code for two cases computes the case that its condition selects.** -/
theorem computes_cases {β : Type} {x y : Act ε Val β} {K : β → Vars → Prop}
    (hnodup : ((language view w).labels code).Nodup)
    (hthen : condition.value w.this vars = .bool true →
      (language view w).Computes code thenCode vars x K)
    (helse : condition.value w.this vars = .bool false →
      (language view w).Computes code elseCode vars y K) :
    (language view w).Computes code (cases condition thenLabel endLabel elseCode thenCode) vars
      (do if ← (condition.value w.this vars).truth then x else y) K := by
  cases hv : condition.value w.this vars with
  | bool b =>
    cases b with
    | true => exact (hthen hv).of_wraps (wraps_cases_of_true hnodup hv)
    | false => exact (helse hv).of_wraps (wraps_cases_of_false hnodup hv)
  | _ =>
    intro rest hrest h
    refine .single ?_
    simp only [cases, List.append_assoc, List.cons_append]
    exact step_branch_of_stuck fun b => by simp [hv]

end Cases

end Jumps

end MiniJava.Ir
