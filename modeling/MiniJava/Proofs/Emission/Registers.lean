import Mathlib.Data.List.Dedup
import Mathlib.Data.List.Nodup
import MiniJava.Jvm.Registers

/-!
# Registers of their own

Names get registers with consecutive numbers in the order in which they come first
(`Registers.Numbers`). The numbers are 16-bit words, so each variable has a register of its own
exactly if the method needs no more than 65536 of them (`Method.hasOwnRegisters_iff`).
-/

namespace MiniJava

namespace Jvm.Registers

/-- These names have registers, with numbers from the first one on. -/
structure Numbers (r : Registers) (first : Nat) (names : List String) : Prop where
  nodup : names.Nodup
  get? : ∀ x, r.get? x = if x ∈ names then some (.ofNat (first + names.idxOf x)) else none
  next : r.next = .ofNat (first + names.length)

variable {r : Registers} {first : Nat} {names : List String} {x : String}

theorem next_assign (r : Registers) (x : String) :
    (r.assign x).next = if (r.get? x).isSome then r.next else r.next + 1 := by
  unfold assign get?
  grind

namespace Numbers

theorem empty (first : Nat) : Numbers { next := .ofNat first } first [] := by
  refine ⟨List.nodup_nil, fun x => ?_, rfl⟩
  unfold Registers.get?
  simp

theorem assign_of_mem (h : r.Numbers first names) (hx : x ∈ names) :
    (r.assign x).Numbers first names := by
  have hget := h.get? x
  rw [if_pos hx] at hget
  refine ⟨h.nodup, fun y => ?_, ?_⟩
  · rw [get?_assign]
    split
    · rename_i hy
      rw [hy, hget, Option.getD_some, if_pos hx]
    · exact h.get? y
  · rw [next_assign, hget, Option.isSome_some, if_pos rfl]
    exact h.next

theorem assign_of_not_mem (h : r.Numbers first names) (hx : x ∉ names) :
    (r.assign x).Numbers first (names ++ [x]) := by
  have hget := h.get? x
  rw [if_neg hx] at hget
  refine ⟨?_, fun y => ?_, ?_⟩
  · exact List.nodup_append.mpr ⟨h.nodup, List.nodup_singleton x, by
      rintro y hy z hz rfl
      exact hx (List.mem_singleton.mp hz ▸ hy)⟩
  · rw [get?_assign]
    by_cases hy : y = x
    · subst hy
      rw [if_pos rfl, hget, Option.getD_none, h.next,
        if_pos (List.mem_append_right _ List.mem_cons_self), List.idxOf_append_of_notMem hx]
      simp
    · rw [if_neg hy, h.get?]
      by_cases hmem : y ∈ names
      · rw [if_pos hmem, if_pos (List.mem_append_left _ hmem), List.idxOf_append_of_mem hmem]
      · rw [if_neg hmem, if_neg]
        simp [hmem, hy]
  · rw [next_assign, hget, if_neg (by simp), h.next, List.length_append, List.length_singleton,
      ← Nat.add_assoc, UInt16.ofNat_add (first + names.length) 1]
    rfl

/-- All names get registers, each of them once and behind those that are there. -/
theorem foldl_assign (h : r.Numbers first names) (xs : List String) :
    ∃ names', (xs.foldl assign r).Numbers first names' ∧ names <+: names' ∧
      ∀ x, x ∈ names' ↔ x ∈ names ∨ x ∈ xs := by
  induction xs generalizing r names with
  | nil => exact ⟨names, h, List.prefix_refl names, by simp⟩
  | cons x xs ih =>
    by_cases hx : x ∈ names
    · obtain ⟨names', h', hprefix, hmem⟩ := ih (h.assign_of_mem hx)
      refine ⟨names', h', hprefix, fun y => (hmem y).trans ?_⟩
      rw [List.mem_cons]
      constructor
      · rintro (hy | hy)
        · exact .inl hy
        · exact .inr (.inr hy)
      · rintro (hy | rfl | hy)
        · exact .inl hy
        · exact .inl hx
        · exact .inr hy
    · obtain ⟨names', h', hprefix, hmem⟩ := ih (h.assign_of_not_mem hx)
      refine ⟨names', h', (List.prefix_append names [x]).trans hprefix, fun y => (hmem y).trans ?_⟩
      rw [List.mem_append, List.mem_singleton, List.mem_cons, or_assoc]

/-- Names that differ get registers in their own order. -/
theorem foldl_assign_of_nodup (h : r.Numbers first names) (xs : List String)
    (hxs : (names ++ xs).Nodup) : (xs.foldl assign r).Numbers first (names ++ xs) := by
  induction xs generalizing r names with
  | nil => rwa [List.append_nil]
  | cons x xs ih =>
    have hx : x ∉ names := fun hx =>
      (List.nodup_append.mp hxs).2.2 x hx x List.mem_cons_self rfl
    rw [List.append_cons] at hxs ⊢
    exact ih (h.assign_of_not_mem hx) hxs

end Numbers

end Jvm.Registers

namespace Ir.Method

variable (m : Method)

/-- The first register for a variable. -/
def firstSlot : Nat := if m.isStatic then 0 else 1

/-- How many registers the method needs: one for each variable, and one for `this`. -/
def slots : Nat := m.firstSlot + (m.vars.map Var.name).dedup.length

/-- Each variable has a register of its own, and none has that of `this`. -/
structure HasOwnRegisters : Prop where
  eq_of_get?_eq : ∀ v ∈ m.vars, ∀ v' ∈ m.vars,
    (Jvm.Registers.ofMethod m).get? v.name = (Jvm.Registers.ofMethod m).get? v'.name →
      v.name = v'.name
  ne_this : m.isStatic = false → ∀ v ∈ m.vars, (Jvm.Registers.ofMethod m).get? v.name ≠ some 0

variable {m}

/-- At first no name has a register. -/
theorem numbers_nil (m : Method) :
    (Jvm.Registers.mk {} (if m.isStatic then 0 else 1)).Numbers m.firstSlot [] := by
  have h := Jvm.Registers.Numbers.empty m.firstSlot
  unfold firstSlot at h ⊢
  cases hstatic : m.isStatic <;> rw [hstatic] at h <;> exact h

theorem exists_numbers (m : Method) :
    ∃ names, (Jvm.Registers.ofMethod m).Numbers m.firstSlot names ∧
      (∀ x, x ∈ names ↔ ∃ v ∈ m.vars, v.name = x) ∧ m.slots = m.firstSlot + names.length := by
  obtain ⟨names, hnames, -, hmem⟩ := m.numbers_nil.foldl_assign (m.vars.map Var.name)
  refine ⟨names, hnames, fun x => ?_, ?_⟩
  · rw [hmem, List.mem_map]
    simp
  · have hperm : names.Perm (m.vars.map Var.name).dedup := by
      refine (List.perm_ext_iff_of_nodup hnames.nodup (List.nodup_dedup _)).mpr fun x => ?_
      rw [hmem, List.mem_dedup]
      simp
    rw [slots, hperm.length_eq]

theorem firstSlot_of_static (h : m.isStatic = true) : m.firstSlot = 0 := by
  rw [firstSlot, if_pos h]

theorem firstSlot_of_instance (h : m.isStatic = false) : m.firstSlot = 1 := by
  rw [firstSlot, h, if_neg Bool.false_ne_true]

/-- Words that are not too long are the numbers they stand for. -/
theorem ofNat_inj_of_lt {i j : Nat} (hi : i < UInt16.size) (hj : j < UInt16.size)
    (h : UInt16.ofNat i = UInt16.ofNat j) : i = j := by
  have hnat := congrArg UInt16.toNat h
  rwa [UInt16.toNat_ofNat_of_lt' hi, UInt16.toNat_ofNat_of_lt' hj] at hnat

/-- Registers are repeated where there are not enough of them. -/
theorem slots_le_of_hasOwnRegisters (h : m.HasOwnRegisters) : m.slots ≤ UInt16.size := by
  obtain ⟨names, hnames, hmem, hslots⟩ := exists_numbers m
  by_contra hmany
  have hfirst : m.firstSlot ≤ 1 := by
    unfold firstSlot
    split <;> omega
  have hsize : UInt16.size = 65536 := rfl
  have hlength : UInt16.size - m.firstSlot < names.length := by omega
  have hget (i : Nat) (hi : i < names.length) :
      (Jvm.Registers.ofMethod m).get? names[i] = some (.ofNat (m.firstSlot + i)) := by
    rw [hnames.get?, if_pos (List.getElem_mem hi), hnames.nodup.idxOf_getElem]
  have hvar (i : Nat) (hi : i < names.length) : ∃ v ∈ m.vars, v.name = names[i] :=
    (hmem _).mp (List.getElem_mem hi)
  -- The number of this name is 0 again.
  have hzero := hget _ hlength
  have hsum : m.firstSlot + (UInt16.size - m.firstSlot) = UInt16.size := by omega
  rw [hsum] at hzero
  obtain ⟨v, hv, hname⟩ := hvar _ hlength
  cases hstatic : m.isStatic with
  | false => exact h.ne_this hstatic v hv (by rw [hname, hzero]; rfl)
  | true =>
    have hlength₀ : 0 < names.length := Nat.zero_lt_of_lt hlength
    obtain ⟨v₀, hv₀, hname₀⟩ := hvar 0 hlength₀
    have heq := h.eq_of_get?_eq v hv v₀ hv₀ (by
      rw [hname, hname₀, hzero, hget 0 hlength₀, firstSlot_of_static hstatic]
      rfl)
    rw [hname, hname₀] at heq
    have hindex := (hnames.nodup.getElem_inj_iff).mp heq
    rw [firstSlot_of_static hstatic] at hindex
    cases hindex

/-- **Each variable has a register of its own exactly if there are enough of them.** -/
theorem hasOwnRegisters_iff : m.HasOwnRegisters ↔ m.slots ≤ UInt16.size := by
  refine ⟨slots_le_of_hasOwnRegisters, fun hfew => ?_⟩
  obtain ⟨names, hnames, hmem, hslots⟩ := exists_numbers m
  have hget {v : Var} (hv : v ∈ m.vars) : names.idxOf v.name < names.length ∧
      (Jvm.Registers.ofMethod m).get? v.name =
        some (.ofNat (m.firstSlot + names.idxOf v.name)) := by
    have hname := (hmem v.name).mpr ⟨v, hv, rfl⟩
    exact ⟨List.idxOf_lt_length_iff.mpr hname, by rw [hnames.get?, if_pos hname]⟩
  refine ⟨fun v hv v' hv' heq => ?_, fun hstatic v hv hzero => ?_⟩
  · obtain ⟨hi, hv⟩ := hget hv
    obtain ⟨hj, hv'⟩ := hget hv'
    rw [hv, hv', Option.some_inj] at heq
    have hindex := ofNat_inj_of_lt (by omega) (by omega) heq
    exact (List.idxOf_inj (List.idxOf_lt_length_iff.mp hi)).mp (by omega)
  · obtain ⟨hi, hv⟩ := hget hv
    rw [hv, Option.some_inj, firstSlot_of_instance hstatic] at hzero
    rw [firstSlot_of_instance hstatic] at hslots
    have hindex := ofNat_inj_of_lt (i := 1 + names.idxOf v.name) (j := 0) (by omega) (by decide) hzero
    omega

end Ir.Method

namespace Jvm

variable {m : Ir.Method}

/-- The registers that a word has counted. -/
theorem size_ofMethod (m : Ir.Method) : (Registers.ofMethod m).size = m.slots % UInt16.size := by
  obtain ⟨names, hnames, -, hslots⟩ := m.exists_numbers
  rw [Registers.size, hnames.next, ← hslots, UInt16.toNat_ofNat']

/-- As long as a word can count them, the registers are as many as the method needs. -/
theorem size_ofMethod_of_lt (h : m.slots < UInt16.size) : (Registers.ofMethod m).size = m.slots := by
  rw [size_ofMethod, Nat.mod_eq_of_lt h]

end Jvm

end MiniJava
