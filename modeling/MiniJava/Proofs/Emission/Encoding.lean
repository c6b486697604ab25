import MiniJava.Proofs.Emission.Blocks
import MiniJava.Proofs.Lowering.Typed
import MiniJava.Proofs.Semantics.StackMachine

/-!
# Values and effects on the machine

The machine has fewer sorts of values than three-address code, and its effects name classes by their
paths. `Val.encode` and `ClassNames.effect` say what stands for a value and for an effect.
Operations on values of the sorts that a type tells agree with those on what stands for them
(`act_arith`, `act_xor`, `holds?_encode`).
-/

namespace MiniJava

open Ir (BinOp)
open Jvm (ElementSort)

/-! ## Values -/

namespace Val

/-- What stands for a value: truth values are 0 and 1, and a class is no value of the machine. -/
def encode : Val → Jvm.Val
  | int n => .int n
  | bool b => .int (if b then 1 else 0)
  | ref address => .ref address
  | cls _ => .unset

/-- The value is of this sort. A class may stand where there is no value yet. -/
def HasSort : Val → ElementSort → Prop
  | int _, .int | bool _, .boolean | ref _, .ref | cls _, _ => True
  | _, _ => False

/-- The value is of a sort that values of the type have. -/
abbrev HasType (v : Val) (t : Ir.IrType) : Prop := v.HasSort (.ofType t)

theorem moves_encode {v : Val} {t : Ir.IrType} (h : v.HasType t) :
    (Jvm.Family.ofType t).moves v.encode = true := by
  cases t <;> cases v <;> first | rfl | cases h

end Val

/-- A variable takes values of the types that fit it. -/
theorem Ir.IrType.Fits.ofType_eq {t u : Ir.IrType} (h : t.Fits u) :
    ElementSort.ofType t = ElementSort.ofType u := by
  rcases h with rfl | ⟨ht, hu, -⟩
  · rfl
  · cases t <;> cases ht <;> cases u <;> cases hu <;> rfl

namespace Jvm

/-! ## Operations -/

/-- The operator of an operation on integers. -/
def Arith.toOperator : Arith → BinaryOp
  | add => .add
  | sub => .sub
  | mul => .mul
  | div => .div

/-- Integers are worked on alike. -/
theorem eval_arith (op : Arith) (a b : Int32) :
    (∃ c, op.eval a b = .ok c ∧ op.toOperator.eval (.int a) (.int b) = .ok (.int c)) ∨
      op.eval a b = .error (.thrown .divisionByZero) ∧
        op.toOperator.eval (.int a) (.int b) = .error (.thrown .divisionByZero) := by
  cases op with
  | div =>
    have hzero : b.toInt = 0 ↔ b = 0 := Int32.toInt_inj (y := 0)
    have hdiv : Int32.ofInt (a.toInt.tdiv b.toInt) = a / b := by
      rw [← Int32.toInt_inj, Int32.toInt_div, Int32.toInt_ofInt]
    by_cases hb : b = 0
    · simp [Arith.eval, Arith.toOperator, BinaryOp.eval, BinaryOp.onInts, hb]
    · simp [Arith.eval, Arith.toOperator, BinaryOp.eval, BinaryOp.onInts, hzero, hb, hdiv]
  | _ => simp [Arith.eval, Arith.toOperator, BinaryOp.eval, BinaryOp.onInts]

variable {v₁ v₂ : MiniJava.Val}

section Act

variable {w : World Effect MiniJava.Val} {s : List Val} {r : UInt16 → Val}

theorem act_arith (op : Arith) (h₁ : v₁.HasSort .int) (h₂ : v₂.HasSort .int) :
    (Instr.arith op).act (w.map MiniJava.Val.encode) ⟨v₂.encode :: v₁.encode :: s, r⟩ = do
      let v ← (Act.ofExcept (op.toOperator.eval v₁ v₂)).mapEnding MiniJava.Val.encode
      return .fall ⟨v.encode :: s, r⟩ := by
  cases v₁ <;> cases h₁ <;> cases v₂ <;> cases h₂
  · rename_i a b
    change (do return Next.fall (Locals.mk (.int (← Act.ofExcept (op.eval a b)) :: s) r)) = _
    rcases eval_arith op a b with ⟨c, hc, hc'⟩ | ⟨hc, hc'⟩
    · rw [hc, hc']
      rfl
    · rw [hc, hc']
      rfl
  all_goals rfl

/-- A truth value is negated alike. -/
theorem act_xor {v : MiniJava.Val} (h : v.HasSort .boolean) :
    Instr.xor.act (w.map MiniJava.Val.encode) ⟨.int 1 :: v.encode :: s, r⟩ = do
      let v ← (v.not : Act Effect MiniJava.Val MiniJava.Val).mapEnding MiniJava.Val.encode
      return .fall ⟨v.encode :: s, r⟩ := by
  cases v <;> cases h
  · rename_i b
    cases b <;> rfl
  · rfl

end Act

theorem holds?_unset (c : Comparison) (x : Val) :
    c.holds? .unset x = none ∧ c.holds? x .unset = none := by
  cases c <;> cases x <;> exact ⟨rfl, rfl⟩

/-- Values of one sort are compared alike, where they can be compared. -/
theorem holds?_encode {op : BinOp} {σ : ElementSort} (hop : op.isComparison = true)
    (h₁ : v₁.HasSort σ) (h₂ : v₂.HasSort σ) (hordered : op ≠ .eq → op ≠ .ne → σ = .int) :
    (∃ b, op.toOperator.eval v₁ v₂ = .ok (.bool b) ∧
        (Frame.comparison op (σ == .ref)).holds? v₁.encode v₂.encode = some b) ∨
      op.toOperator.eval v₁ v₂ = .error .stuck ∧
        (Frame.comparison op (σ == .ref)).holds? v₁.encode v₂.encode = none := by
  have hequal (hσ : σ ≠ .int) : op = .eq ∨ op = .ne := by
    by_cases heq : op = .eq
    · exact .inl heq
    · by_cases hne : op = .ne
      · exact .inr hne
      · exact absurd (hordered heq hne) hσ
  cases v₁ <;> cases v₂ <;> cases σ <;> cases h₁ <;> cases h₂
  -- There are values of one sort left, and classes, with which nothing is compared.
  all_goals try exact .inr ⟨rfl, by simp [MiniJava.Val.encode, holds?_unset]⟩
  · cases op with
    | add | sub | mul | div => cases hop
    | _ =>
      simp [BinOp.toOperator, BinaryOp.eval, BinaryOp.onInts, Frame.comparison, Comparison.holds?,
        MiniJava.Val.encode, Int32.lt_iff_toInt_lt, Int32.le_iff_toInt_le, Int32.toInt_inj,
        beq_eq_decide, bne, Decidable.em]
  · rename_i a b
    rcases hequal nofun with rfl | rfl <;> cases a <;> cases b <;>
      simp [BinOp.toOperator, BinaryOp.eval, BinaryOp.onEqual, Frame.comparison,
        Comparison.holds?, MiniJava.Val.encode]
  · rcases hequal nofun with rfl | rfl <;>
      simp [BinOp.toOperator, BinaryOp.eval, BinaryOp.onEqual, Frame.comparison,
        Comparison.holds?, MiniJava.Val.encode, bne, Decidable.em]

/-! ## Effects -/

namespace ClassNames

variable (cs : ClassNames)

/-- What stands for an effect. -/
def effect : Ir.Effect → Effect
  | .call callee target arguments =>
    .invoke callee.invocation
      ⟨cs.owner callee.owner, callee.method, cs.methodType callee.signature callee.result⟩
      ((if callee.invocation = .static then [] else [target.encode]) ++
        arguments.map MiniJava.Val.encode)
  | .newObject className => .newObject (cs.classPath className)
  | .newArray t length => .newArray (cs.component t.element) length.encode
  | .arrayLength array => .arrayLength array.encode
  | .arrayLoad t array index => .loadElement (.ofType t) array.encode index.encode
  | .arrayStore t array index value =>
    .storeElement (.ofType t) array.encode index.encode value.encode
  | .getField t object field =>
    .getField ⟨cs.owner t, field.name, cs.jtype field.type⟩ object.encode
  | .putField t object field value =>
    .putField ⟨cs.owner t, field.name, cs.jtype field.type⟩ object.encode value.encode

theorem sort_jtype (t : Ir.IrType) : (cs.jtype t).sort = .ofType t := by
  cases t <;> rfl

/-- A call has a result of the type that it returns. -/
theorem result?_call (c : Ir.Call) (this : MiniJava.Val) (vars : Vars) :
    (cs.effect (c.effect this vars)).result? =
      if c.returnType = .void then none else some (.ofType c.returnType) := by
  simp only [effect, Ir.Call.effect, Ir.Call.callee, Effect.result?, methodType, jtype_eq_void,
    sort_jtype]

end ClassNames

/-- The answers have the sorts that the effects ask for. -/
def Answers (w : World Effect MiniJava.Val) : Prop :=
  ∀ h e s, e.result? = some s → ∀ v, w.reply h e = .returned v → ∃ x, v = some x ∧ x.HasSort s

end Jvm

end MiniJava
