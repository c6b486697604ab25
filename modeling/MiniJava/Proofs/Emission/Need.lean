import Mathlib.Combinatorics.Enumerative.DoubleCounting
import Mathlib.Data.Finset.Card
import MiniJava.Proofs.Emission.Registers
import MiniJava.Proofs.Emission.StackLimit

/-!
# What a method needs

The limits of a method can be read off its three-address code. Its stack gets as deep as the
deepest block does, and how deep that is follows from the number of operands and the result of the
instruction (`Jvm.stackLimit_emitted_le_iff`). Its registers are as many as there are names of
variables, as long as these can be counted in a word (`Jvm.size_ofMethod_of_lt`).
-/

namespace MiniJava

open Ir (IrType Operand)

namespace Ir

/-- How deep the operand stack gets when a value is computed and stored. -/
def Rhs.depth : Rhs → Nat
  | not _ => 2
  | value => max 1 value.operands.length

/-- How deep the operand stack gets in the block of an instruction. -/
def Instr.depth : Instr → Nat
  | assign _ value => value.depth
  | call c => max c.operands.length (if c.returnType = .void then 0 else 1)
  | i => i.operands.length

end Ir

namespace Jvm

/-! ## The stack -/

namespace Frame

variable {fr : Frame} {n : Nat}

/-- While operands are loaded, the stack is no deeper than behind that. -/
theorem peak_loading {os : List Operand} {rest : List Instr} {k : Nat}
    (h : level joinLevel rest = k + os.length) :
    level joinLevel (os.map fr.loading ++ rest) = k ∧
      peak joinLevel (os.map fr.loading ++ rest) = peak joinLevel rest := by
  induction os generalizing k with
  | nil => exact ⟨h, rfl⟩
  | cons o os ih =>
    rw [List.length_cons, Nat.add_comm os.length, ← Nat.add_assoc] at h
    obtain ⟨hlevel, hpeak⟩ := ih h
    have hload : level joinLevel (fr.loading o :: (os.map fr.loading ++ rest)) = k := by
      have hstep : level joinLevel (fr.loading o :: (os.map fr.loading ++ rest)) =
          level joinLevel (os.map fr.loading ++ rest) - 1 + 0 := by
        cases o <;> rfl
      rw [hstep, hlevel]
      rfl
    have hle : level joinLevel rest ≤ peak joinLevel rest := level_le_peak (List.suffix_refl rest)
    rw [List.map_cons, List.cons_append, peak, hload, hpeak]
    exact ⟨rfl, by omega⟩

/-- A comparison takes two values, and the stack gets no deeper. -/
theorem peak_comparing (c : Comparison) {thenLabel endLabel : String} {rest : List Instr}
    (hend : joinLevel endLabel = 1) (hrest : level joinLevel rest = 1 ∧ peak joinLevel rest = 1) :
    let code := .ifCompare c thenLabel :: .const 0 :: .goto endLabel :: .label thenLabel ::
      .const 1 :: .label endLabel :: rest
    level joinLevel code = 2 ∧ peak joinLevel code = 2 := by
  simp [level, peak, Instr.falls, Instr.pops, Instr.pushes, Instr.target?, hend, hrest]

/-- Behind the loading of its operands, an instruction takes them, and the stack gets as deep as it
does in the block. -/
theorem peak_finishing {i : Ir.Instr} (hi : i.Tidy) :
    level joinLevel (fr.finishing n i) = i.operands.length ∧
      peak joinLevel (fr.finishing n i) = i.depth := by
  have hinvoking (c : Ir.Call) : (fr.invoking c).pops = c.operands.length ∧
      (fr.invoking c).pushes = if c.returnType = .void then 0 else 1 :=
    ⟨fr.pops_invoking c, fr.pushes_invoking c⟩
  cases i with
  | assign dest value =>
    cases value with
    | binary op left right =>
      cases op with
      | add | sub | mul | div => exact ⟨rfl, rfl⟩
      | _ => exact peak_comparing _ (joinLevel_end n) ⟨rfl, rfl⟩
    | call c =>
      obtain ⟨hpops, hpushes⟩ := hinvoking c
      rw [if_neg hi] at hpushes
      change level joinLevel [fr.invoking c, fr.storing dest] = _ ∧
        peak joinLevel [fr.invoking c, fr.storing dest] = _
      have hstore : level joinLevel [fr.storing dest] = 1 := rfl
      have hcall : level joinLevel [fr.invoking c, fr.storing dest] = c.operands.length := by
        rw [level_cons_of_falls rfl, hstore, hpops, hpushes, Nat.sub_self, Nat.zero_add]
      refine ⟨hcall, ?_⟩
      rw [peak, hcall]
      exact Nat.max_comm _ _
    | _ => exact ⟨rfl, rfl⟩
  | call c =>
    obtain ⟨hpops, hpushes⟩ := hinvoking c
    rw [finishing]
    by_cases hvoid : c.returnType = .void
    · rw [if_pos hvoid] at hpushes ⊢
      have hcall : level joinLevel [fr.invoking c] = c.operands.length := by
        rw [level_cons_of_falls rfl, hpops, hpushes]
        exact Nat.zero_add _
      refine ⟨hcall, ?_⟩
      rw [peak, hcall, Ir.Instr.depth, if_pos hvoid]
      rfl
    · rw [if_neg hvoid] at hpushes ⊢
      have hpop : level joinLevel [.pop] = 1 := rfl
      have hcall : level joinLevel [fr.invoking c, .pop] = c.operands.length := by
        rw [level_cons_of_falls rfl, hpop, hpops, hpushes]
        exact Nat.zero_add _
      refine ⟨hcall, ?_⟩
      rw [peak, hcall, Ir.Instr.depth, if_neg hvoid]
      rfl
  | goto target =>
    have htarget := joinLevel_of_isLabel hi
    simp [finishing, level, peak, Instr.falls, Instr.target?, Instr.pops, htarget,
      Ir.Instr.operands, Ir.Instr.depth]
  | branch condition target => exact ⟨rfl, rfl⟩
  | ret value => cases value <;> exact ⟨rfl, rfl⟩
  | label name => exact ⟨rfl, rfl⟩
  | _ => exact ⟨rfl, rfl⟩

/-- **The stack gets as deep in a block as the instruction needs.** -/
theorem peak_block {i : Ir.Instr} (hi : i.Tidy) : peak joinLevel (fr.block n i) = i.depth := by
  obtain ⟨hlevel, hpeak⟩ : level joinLevel (fr.finishing n i) = i.operands.length ∧
      peak joinLevel (fr.finishing n i) = i.depth := peak_finishing hi
  rw [block, (peak_loading (k := 0) (hlevel.trans (Nat.zero_add _).symm)).2, hpeak]

/-- What the blocks of the code are all like can be said of its instructions. -/
theorem forall_mem_blocks {p : List Instr → Prop} {is : Ir.Code} {q : Ir.Instr → Prop}
    (h : ∀ i ∈ is, ∀ n, p (fr.block n i) ↔ q i) : (∀ b ∈ fr.blocks n is, p b) ↔ ∀ i ∈ is, q i := by
  induction is generalizing n with
  | nil => simp [blocks]
  | cons i is ih =>
    obtain ⟨hi, his⟩ := List.forall_mem_cons.mp h
    rw [blocks, List.forall_mem_cons, List.forall_mem_cons, hi n, ih his]

end Frame

/-- **The limit of the stack is the greatest depth that an instruction needs.** -/
theorem stackLimit_emitted_le_iff {m : Ir.Method} (h : ∀ i ∈ m.code, i.Tidy) (classes : ClassNames)
    (d : Nat) : (emitted classes m).stackLimit ≤ d ↔ ∀ i ∈ m.code, i.depth ≤ d := by
  have hstands : ∀ b ∈ (Frame.ofMethod classes m).blocks 0 m.code, Stands b :=
    fun b hb => Frame.stands_of_mem_blocks _ h hb
  obtain ⟨hzero, hlayered, -⟩ := layered_flatten hstands
  obtain ⟨hle, hor⟩ := peak_flatten hstands
  have hlimit : (emitted classes m).stackLimit =
      peak joinLevel ((Frame.ofMethod classes m).blocks 0 m.code).flatten :=
    hlayered.stackLimit_eq hzero
  have hblocks : (∀ b ∈ (Frame.ofMethod classes m).blocks 0 m.code, peak joinLevel b ≤ d) ↔
      ∀ i ∈ m.code, i.depth ≤ d :=
    Frame.forall_mem_blocks fun i hi n => by rw [Frame.peak_block (h i hi)]
  rw [hlimit, ← hblocks]
  constructor
  · exact fun hd b hb => (hle b hb).trans hd
  · intro hd
    rcases hor with hnone | ⟨b, hb, hpeak⟩
    · rw [hnone]
      exact Nat.zero_le d
    · exact hpeak ▸ hd b hb

end Jvm

/-! ## Registers -/

namespace Ir.Method

/-- A method needs no more registers than another if each of its variables stands for one of the
other, and different ones for different ones. -/
theorem slots_le_slots {m m' : Method} (hstatic : m'.isStatic = m.isStatic)
    {Γ : String → String → Prop} (hvars : ∀ v' ∈ m'.vars, ∃ v ∈ m.vars, Γ v.name v'.name)
    (hΓ : ∀ z x y, Γ z x → Γ z y → x = y) : m'.slots ≤ m.slots := by
  have hnames : ((m'.vars.map Var.name).toFinset).card ≤ ((m.vars.map Var.name).toFinset).card := by
    refine Finset.card_le_card_of_forall_subsingleton (fun x z => Γ z x) (fun x hx => ?_)
      fun z _ x hx y hy => ?_
    · obtain ⟨v', hv', rfl⟩ := List.mem_map.mp (List.mem_toFinset.mp hx)
      obtain ⟨v, hv, hvv'⟩ := hvars v' hv'
      exact ⟨v.name, List.mem_toFinset.mpr (List.mem_map_of_mem hv), hvv'⟩
    · exact hΓ z x y hx.2 hy.2
  rw [List.card_toFinset, List.card_toFinset] at hnames
  unfold slots firstSlot
  rw [hstatic]
  exact Nat.add_le_add_left hnames _

end Ir.Method

end MiniJava
