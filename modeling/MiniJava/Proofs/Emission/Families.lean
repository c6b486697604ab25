import MiniJava.Proofs.Emission.Simulation
import MiniJava.Proofs.Emission.Slots

/-!
# One type for a variable, one family for a register

A name stands for one variable in the whole of a method: wherever it occurs among the parameters and
in the instructions, it has the same type. So all loads and stores of a register that one variable
has for itself are of one family (`Jvm.HasFamilies`), the one for integers and truth values or the
one for references. Where variables share registers, because a word cannot count them all, both
families may load and store the same one.
-/

namespace MiniJava.Jvm

open Ir (Var)

/-- All loads and stores of a register are of the same family. -/
def HasFamilies (code : List Instr) : Prop :=
  ∀ a ∈ accesses code, ∀ b ∈ accesses code, a.2 = b.2 → a.1 = b.1

variable {fr : Frame} {u : Ir.ClassUnit} {m : Ir.Method}

/-- In a well-typed method, the registers that blocks access are those of variables, as their types
say, and in an instance method that of `this`. -/
theorem Frame.Suits.mem_accesses (hfr : fr.Suits u m) {n : Nat} {a : Family × UInt16}
    (ha : a ∈ accesses (fr.blocks n m.code).flatten) :
    (∃ v ∈ m.vars, a = (.ofType v.type, fr.slot v)) ∨ a = (.ref, 0) ∧ m.isStatic = false := by
  obtain ⟨i, hi, k, hblock⟩ := exists_of_mem_accesses_blocks ha
  rcases mem_accesses_block hblock with ⟨v, hv, rfl⟩ | ⟨rfl, c, hc⟩
  · exact .inl ⟨v, List.mem_append_right _ (List.mem_flatMap.mpr ⟨i, hi, hv⟩), rfl⟩
  · exact .inr ⟨rfl, i.wellTyped_of_mem_operands (hfr.wellTyped.code i hi) hc⟩

/-- Where variables have registers of their own, a register is that of one variable or of `this`. -/
theorem Frame.Suits.hasFamilies (hfr : fr.Suits u m) (n : Nat) :
    HasFamilies (fr.blocks n m.code).flatten := by
  intro a ha b hb hslot
  rcases hfr.mem_accesses ha with ⟨v, hv, rfl⟩ | ⟨rfl, hinstance⟩ <;>
    rcases hfr.mem_accesses hb with ⟨w, hw, rfl⟩ | ⟨rfl, hinstance⟩
  · obtain ⟨types, htypes⟩ := hfr.wellTyped.consistent
    have htype : v.type = w.type := by
      rw [htypes v hv, htypes w hw, hfr.slot_inj hv hw hslot]
    exact congrArg Family.ofType htype
  · exact absurd hslot (hfr.slot_ne_zero hv hinstance)
  · exact absurd hslot.symm (hfr.slot_ne_zero hw hinstance)
  · rfl

/-- **Each variable of a method of an accepted program has one type.** So all loads and stores of a
register are of one family, if the variables have registers of their own. -/
theorem hasFamilies_of_lower {source : String} {root : Node} {table : SymbolTable}
    (h : Accepted source root table) {unit : Ir.ClassUnit} (hlower : lower table root = .ok unit)
    (hm : m ∈ unit.methods) :
    (∀ v ∈ m.vars, ∀ w ∈ m.vars, v.name = w.name → v.type = w.type) ∧
    (m.slots ≤ UInt16.size → ∀ classes limit e, emitMethod classes limit m = .ok e →
      HasFamilies e.code) := by
  refine ⟨fun v hv w hw hname => ?_, fun hslots classes limit e he => ?_⟩
  · obtain ⟨types, htypes⟩ := (method_wellTyped_of_lower h hlower hm).consistent
    rw [htypes v hv, htypes w hw, hname]
  · obtain ⟨-, -, rfl⟩ := emitMethod_eq_ok.mp he
    have hfr : (Frame.ofMethod classes m).Suits unit m := suits_ofMethod h hlower hm hslots
    exact hfr.hasFamilies 0

/-- A parameter that hides a field of another type, and variables of both families. -/
theorem hasFamilies_of_lower_shadowed : ∃ root table unit m e,
    Accepted "import p.B;class A{boolean a;int f(int a){B c;int[] d;d=[a,1];return d[a]+c.g(d);}}"
      root table ∧ lower table root = .ok unit ∧ m ∈ unit.methods ∧ m.slots = 8 ∧
      emitMethod (.ofUnit unit) none m = .ok e ∧ (accesses e.code).length = 16 ∧
      (∀ v ∈ m.vars, ∀ w ∈ m.vars, v.name = w.name → v.type = w.type) ∧
      HasFamilies e.code := by
  obtain ⟨root, table, h, hp⟩ := Accepted.exists_of_any
    "import p.B;class A{boolean a;int f(int a){B c;int[] d;d=[a,1];return d[a]+c.g(d);}}"
    (fun root table => match lower table root with
      | .ok unit => unit.methods.any fun m => m.code.all Ir.Instr.hasBlock &&
        decide (m.slots = 8 ∧ (accesses (emitted (.ofUnit unit) m).code).length = 16)
      | .error _ => false)
    (by decide +kernel)
  split at hp
  · rename_i unit hlower
    obtain ⟨m, hm, hp⟩ := List.any_eq_true.mp hp
    obtain ⟨hcode, hp⟩ := (Bool.and_eq_true _ _).mp hp
    obtain ⟨hslots, haccesses⟩ := of_decide_eq_true hp
    have hemit : emitMethod (.ofUnit unit) none m = .ok (emitted (.ofUnit unit) m) :=
      emitMethod_eq_ok.mpr ⟨nofun, hcode, rfl⟩
    obtain ⟨htypes, hfamilies⟩ := hasFamilies_of_lower h hlower hm
    exact ⟨root, table, unit, m, _, h, hlower, hm, hslots, hemit, haccesses, htypes,
      hfamilies (by rw [hslots]; decide) _ _ _ hemit⟩
  · cases hp

end MiniJava.Jvm
