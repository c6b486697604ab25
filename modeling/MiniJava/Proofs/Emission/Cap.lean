import MiniJava.Proofs.Emission.Blocks
import MiniJava.Proofs.Lowering.Supply

/-!
# The cap on registers

A method may be refused because it needs more registers than a limit allows. What is compared with
the limit, and what the code says in its limit of locals, is a word that has counted the registers
(`size_ofMethod`). So the cap is enforced exactly (`Ir.Method.IsCapped`) as long as a word can count
them, and not beyond: a method that needs 65536 registers is emitted under every limit, and says
that it needs none (`not_isCapped_wide`).
-/

namespace MiniJava

open Jvm

/-- **The cap on the registers of a method is enforced exactly.** Under a limit the method is
emitted only if it needs no more registers, and its code says how many it needs. -/
structure Ir.Method.IsCapped (m : Method) : Prop where
  slots_le : ∀ classes r e, emitMethod classes (some r) m = .ok e → m.slots ≤ r
  locals_eq : ∀ classes limit e, emitMethod classes limit m = .ok e → e.locals = m.slots

namespace Jvm

variable {m : Ir.Method} {classes : ClassNames} {limit : Option Nat} {e : EmittedMethod}

/-- The limit is compared with what a word has counted. -/
theorem emitMethod_some (classes : ClassNames) (r : Nat) (m : Ir.Method) :
    emitMethod classes (some r) m =
      if r < m.slots % UInt16.size then .error (.registerLimit m.name (m.slots % UInt16.size) r)
      else emitMethod classes none m := by
  rw [← size_ofMethod]
  unfold emitMethod
  by_cases hcap : r < (Registers.ofMethod m).size
  · simp only [hcap, if_true]
    rfl
  · simp only [hcap, if_false]

theorem locals_eq_of_emitMethod (he : emitMethod classes limit m = .ok e) :
    e.locals = m.slots % UInt16.size := by
  obtain ⟨-, -, rfl⟩ := emitMethod_eq_ok.mp he
  exact size_ofMethod m

/-- The cap is enforced if a word can count the registers of a method that is emitted at all. -/
theorem isCapped_of_lt
    (h : ∀ classes e, emitMethod classes none m = .ok e → m.slots < UInt16.size) :
    m.IsCapped := by
  have hlt {classes limit e} (he : emitMethod classes limit m = .ok e) : m.slots < UInt16.size := by
    obtain ⟨-, hblocks, -⟩ := emitMethod_eq_ok.mp he
    exact h classes _ (emitMethod_eq_ok.mpr ⟨nofun, hblocks, rfl⟩)
  refine ⟨fun classes r e he => ?_, fun classes limit e he => ?_⟩
  · have hcap := (emitMethod_eq_ok.mp he).1 r rfl
    rwa [size_ofMethod_of_lt (hlt he)] at hcap
  · rw [locals_eq_of_emitMethod he, Nat.mod_eq_of_lt (hlt he)]

/-- **The cap on registers is enforced exactly as long as a word can count them.** A method is
refused for its registers if the word that has counted them is above the limit, and for nothing that
the limit has to do with otherwise. -/
theorem emitMethod_isCapped_iff (m : Ir.Method) :
    (∀ classes r, emitMethod classes (some r) m =
      if r < m.slots % UInt16.size then .error (.registerLimit m.name (m.slots % UInt16.size) r)
      else emitMethod classes none m) ∧
    (∀ classes limit e, emitMethod classes limit m = .ok e → e.locals = m.slots % UInt16.size) ∧
    (m.IsCapped ↔ ∀ classes e, emitMethod classes none m = .ok e → m.slots < UInt16.size) := by
  refine ⟨fun classes r => emitMethod_some classes r m, fun _ _ _ => locals_eq_of_emitMethod,
    fun h classes e he => ?_, isCapped_of_lt⟩
  rw [← h.locals_eq classes none e he, locals_eq_of_emitMethod he]
  exact Nat.mod_lt _ (by decide)

/-- A static method that does nothing with so many parameters. -/
def wide (n : Nat) : Ir.Method where
  name := "f"
  isPublic := false
  isStatic := true
  returnType := .void
  params := (List.range n).map fun i => ⟨Ir.Supply.tempName i, .int32⟩
  code := [.ret none]

theorem slots_wide (n : Nat) : (wide n).slots = n := by
  have hnames : (wide n).vars.map Ir.Var.name = (List.range n).map Ir.Supply.tempName := by
    simp [wide, Ir.Method.vars, Ir.Instr.vars, Function.comp_def]
  have hnodup := (List.nodup_range (n := n)).map Ir.Supply.tempName_injective
  rw [Ir.Method.slots, hnames, hnodup.dedup, List.length_map, List.length_range,
    Ir.Method.firstSlot_of_static rfl, Nat.zero_add]

/-- A word that has counted 65536 registers is 0, so no limit refuses them. -/
theorem not_isCapped_wide : ¬ (wide 65536).IsCapped := by
  intro h
  have hemit :
      emitMethod ⟨"A", []⟩ (some 0) (wide 65536) = .ok (emitted ⟨"A", []⟩ (wide 65536)) := by
    refine emitMethod_eq_ok.mpr ⟨fun l _ => ?_, rfl, rfl⟩
    rw [size_ofMethod, slots_wide]
    exact Nat.zero_le l
  have hle := h.slots_le _ _ _ hemit
  rw [slots_wide] at hle
  exact absurd hle (by decide)

end Jvm

end MiniJava
