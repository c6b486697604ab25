import MiniJava.Proofs.Emission.Execution

/-!
# The registers of a method

As long as a word can count the registers that a method needs, they are given out without gaps and
without repetition (`Jvm.Registers.Fills`): first to the parameters in their order, then to the other
variables. An instance method keeps register 0 for `this`.

The case analysis that finds the variables of a method and the one that looks up their registers
agree, so emission never wants a register that was not given out
(`Jvm.emitMethod_ne_unknownVariable`), and what is emitted stays below the limit of locals
(`Jvm.toNat_lt_of_mem_registers`). A static method with `this` in it would load register 0, which
may be none of its own.
-/

namespace MiniJava

open Ir (Operand Var)

namespace Jvm

/-! ## Slots -/

/-- The variables of the method and nothing else have registers. The parameters come first; no two
names have the same register; all registers are used from the first one on, which in an instance
method stands behind that of `this`. -/
structure Registers.Fills (r : Registers) (m : Ir.Method) : Prop where
  isSome_iff : ∀ x, (r.get? x).isSome ↔ ∃ v ∈ m.vars, v.name = x
  param : ∀ i (hi : i < m.params.length),
    (r.get? m.params[i].name).map UInt16.toNat = some (m.firstSlot + i)
  injective : ∀ x y, (r.get? x).isSome → r.get? x = r.get? y → x = y
  range : ∀ k, (∃ x, (r.get? x).map UInt16.toNat = some k) ↔ m.firstSlot ≤ k ∧ k < r.size
  this_free : m.isStatic = false → ∀ x, r.get? x ≠ some 0

variable {m : Ir.Method} {names : List String} {x y : String} {k : Nat}

namespace Registers.Numbers

variable {r : Registers} {first : Nat}

/-- As long as a word can count them, a register is the place of its name. -/
theorem toNat_get? (h : r.Numbers first names) (hfew : first + names.length ≤ UInt16.size) :
    (r.get? x).map UInt16.toNat = if x ∈ names then some (first + names.idxOf x) else none := by
  rw [h.get?]
  by_cases hx : x ∈ names
  · have hlt := List.idxOf_lt_length_iff.mpr hx
    rw [if_pos hx, if_pos hx, Option.map_some, UInt16.toNat_ofNat_of_lt' (by omega)]
  · rw [if_neg hx, if_neg hx, Option.map_none]

theorem injective (h : r.Numbers first names) (hfew : first + names.length ≤ UInt16.size)
    (hx : (r.get? x).isSome) (heq : r.get? x = r.get? y) : x = y := by
  have hnat := congrArg (Option.map UInt16.toNat) heq
  rw [h.toNat_get? hfew, h.toNat_get? hfew] at hnat
  have hmem : x ∈ names := by
    rw [h.get?] at hx
    by_contra hmem
    rw [if_neg hmem] at hx
    cases hx
  rw [if_pos hmem] at hnat
  split at hnat
  · exact (List.idxOf_inj hmem).mp (Nat.add_left_cancel (Option.some.inj hnat))
  · cases hnat

/-- The registers in use follow each other. -/
theorem exists_get?_iff (h : r.Numbers first names)
    (hfew : first + names.length ≤ UInt16.size) :
    (∃ x, (r.get? x).map UInt16.toNat = some k) ↔ first ≤ k ∧ k < first + names.length := by
  constructor
  · rintro ⟨x, hx⟩
    rw [h.toNat_get? hfew] at hx
    split at hx
    · have hlt := List.idxOf_lt_length_iff.mpr ‹_›
      cases hx
      omega
    · cases hx
  · rintro ⟨hfirst, hlt⟩
    have hindex : k - first < names.length := by omega
    refine ⟨names[k - first], ?_⟩
    rw [h.toNat_get? hfew, if_pos (List.getElem_mem hindex), h.nodup.idxOf_getElem]
    exact congrArg some (Nat.add_sub_cancel' hfirst)

end Registers.Numbers

/-- Parameters with different names have the first registers. -/
theorem exists_numbers_params (h : (m.params.map Var.name).Nodup) :
    ∃ names, (Registers.ofMethod m).Numbers m.firstSlot names ∧
      m.params.map Var.name <+: names := by
  have hparams := m.numbers_nil.foldl_assign_of_nodup (m.params.map Var.name) h
  obtain ⟨names, hnames, hprefix, -⟩ :=
    hparams.foldl_assign ((m.code.flatMap Ir.Instr.vars).map Var.name)
  refine ⟨names, ?_, hprefix⟩
  unfold Registers.ofMethod Ir.Method.vars
  rw [List.map_append, List.foldl_append]
  exact hnames

theorem get?_param (h : (m.params.map Var.name).Nodup) {i : Nat} (hi : i < m.params.length) :
    (Registers.ofMethod m).get? m.params[i].name = some (.ofNat (m.firstSlot + i)) := by
  obtain ⟨names, hnames, hprefix⟩ := exists_numbers_params h
  obtain ⟨rest, rfl⟩ := hprefix
  have hmem : m.params[i].name ∈ m.params.map Var.name := List.mem_map_of_mem (List.getElem_mem hi)
  have hindex : (m.params.map Var.name).idxOf m.params[i].name = i := by
    have hi' : i < (m.params.map Var.name).length := by rwa [List.length_map]
    rw [← List.getElem_map Var.name (h := hi'), h.idxOf_getElem]
  rw [hnames.get?, if_pos (List.mem_append_left _ hmem), List.idxOf_append_of_mem hmem, hindex]

/-- **The registers of a method fill a range.** -/
theorem fills_ofMethod (hparams : (m.params.map Var.name).Nodup) (hslots : m.slots < UInt16.size) :
    (Registers.ofMethod m).Fills m := by
  obtain ⟨names, hnames, hmem, hlength⟩ := m.exists_numbers
  have hfew : m.firstSlot + names.length ≤ UInt16.size := hlength ▸ Nat.le_of_lt hslots
  have hrange := fun k => hnames.exists_get?_iff (k := k) hfew
  refine ⟨fun x => ?_, fun i hi => ?_, fun x y => hnames.injective hfew, fun k => ?_, ?_⟩
  · rw [← hmem, hnames.get?]
    by_cases hx : x ∈ names
    · rw [if_pos hx]
      exact iff_of_true rfl hx
    · rw [if_neg hx]
      exact iff_of_false Bool.false_ne_true hx
  · have hsubset : m.params.map Var.name ⊆ names := by
      intro x hx
      obtain ⟨v, hv, rfl⟩ := List.mem_map.mp hx
      exact (hmem v.name).mpr ⟨v, List.mem_append_left _ hv, rfl⟩
    have hlength := (hparams.subperm hsubset).length_le
    rw [List.length_map] at hlength
    rw [get?_param hparams hi, Option.map_some, UInt16.toNat_ofNat_of_lt' (by omega)]
  · rw [hrange, size_ofMethod_of_lt hslots, hlength]
  · intro hstatic x hzero
    have hfirst := ((hrange 0).mp ⟨x, by rw [hzero]; rfl⟩).1
    rw [Ir.Method.firstSlot_of_instance hstatic] at hfirst
    omega

/-! ## Emission -/

/-- The register that an instruction loads or stores. -/
def Instr.register? : Instr → Option UInt16
  | load _ register | store _ register => some register
  | _ => none

variable {classes : ClassNames} {limit : Option Nat} {e : EmittedMethod}

/-- **No variable of a method lacks a register.** -/
theorem emitMethod_ne_unknownVariable (classes : ClassNames) (limit : Option Nat) (m : Ir.Method)
    (name method : String) : emitMethod classes limit m ≠ .error (.unknownVariable name method) := by
  intro h
  obtain ⟨n, hmakes⟩ := flatten_makes_ofMethod classes m
  by_cases hlimit : ∀ l, limit = some l → (Registers.ofMethod m).size ≤ l
  · rw [emitMethod_of_le classes hlimit] at h
    cases hall : m.code.all Ir.Instr.hasBlock with
    | true =>
      rw [hmakes.run hall] at h
      cases h
    | false =>
      obtain ⟨err, hknown, herr⟩ := hmakes.fails hall
      rw [herr] at h
      cases h
      cases hknown
  · obtain ⟨l, hl⟩ := not_forall.mp hlimit
    obtain ⟨rfl, hlt⟩ := Classical.not_imp.mp hl
    rw [emitMethod_of_lt classes (Nat.not_le.mp hlt)] at h
    cases h

/-- The registers that code loads or stores. -/
def registers (code : List Instr) : List UInt16 := code.filterMap Instr.register?

/-- The register that an instruction loads or stores, and the family of the instruction. -/
def Instr.access? : Instr → Option (Family × UInt16)
  | load family register | store family register => some (family, register)
  | _ => none

/-- The accesses of code to registers. -/
def accesses (code : List Instr) : List (Family × UInt16) := code.filterMap Instr.access?

theorem registers_eq_map_accesses (code : List Instr) :
    registers code = (accesses code).map Prod.snd := by
  rw [registers, accesses, List.map_filterMap]
  refine List.filterMap_congr fun i _ => ?_
  cases i <;> rfl

/-- What is done with the values on the stack needs a register only to store a result. -/
theorem accesses_finishing (fr : Frame) (n : Nat) (i : Ir.Instr) :
    accesses (fr.finishing n i) = match i with
      | .assign dest _ => [(.ofType dest.type, fr.slot dest)]
      | _ => [] := by
  cases i with
  | assign dest value =>
    cases value with
    | binary op left right => cases op <;> rfl
    | _ => rfl
  | call c =>
    simp only [Frame.finishing]
    split <;> rfl
  | ret value => cases value <;> rfl
  | _ => rfl

/-- A block accesses the registers of the variables of its instruction, each as its type says, and
that of `this`. -/
theorem mem_accesses_block {fr : Frame} {i : Ir.Instr} {n : Nat} {a : Family × UInt16}
    (ha : a ∈ accesses (fr.block n i)) :
    (∃ v ∈ i.vars, a = (.ofType v.type, fr.slot v)) ∨
      a = (.ref, 0) ∧ ∃ c, .this c ∈ i.operands := by
  rw [accesses, Frame.block, List.filterMap_append, ← accesses, ← accesses,
    accesses_finishing] at ha
  rcases List.mem_append.mp ha with ha | ha
  · obtain ⟨j, hj, ha⟩ := List.mem_filterMap.mp ha
    obtain ⟨o, ho, rfl⟩ := List.mem_map.mp hj
    cases o with
    | var v =>
      cases ha
      exact .inl ⟨v, i.mem_vars_of_mem_operands ho List.mem_cons_self, rfl⟩
    | this c =>
      cases ha
      exact .inr ⟨rfl, c, ho⟩
    | _ => cases ha
  · cases i with
    | assign dest value =>
      obtain rfl := List.mem_singleton.mp ha
      exact .inl ⟨dest, List.mem_cons_self, rfl⟩
    | _ => cases ha

/-- Code of blocks accesses registers where one of the blocks does. -/
theorem Frame.exists_of_mem_accesses_blocks {fr : Frame} {n : Nat} {is : Ir.Code}
    {a : Family × UInt16} (ha : a ∈ accesses (fr.blocks n is).flatten) :
    ∃ i ∈ is, ∃ n, a ∈ accesses (fr.block n i) := by
  obtain ⟨j, hj, haccess⟩ := List.mem_filterMap.mp ha
  obtain ⟨i, hi, n, hj⟩ := exists_of_mem_blocks hj
  exact ⟨i, hi, n, List.mem_filterMap.mpr ⟨j, hj, haccess⟩⟩

/-- **All registers in emitted code are below the limit of locals.** -/
theorem toNat_lt_of_mem_registers (hslots : m.slots < UInt16.size)
    (he : emitMethod classes limit m = .ok e)
    (hthis : m.isStatic = true → ∀ i ∈ m.code, ∀ c, .this c ∉ i.operands) {r : UInt16}
    (hr : r ∈ registers e.code) : r.toNat < e.locals := by
  obtain ⟨-, -, rfl⟩ := emitMethod_eq_ok.mp he
  rw [registers_eq_map_accesses] at hr
  obtain ⟨a, ha, rfl⟩ := List.mem_map.mp hr
  obtain ⟨i, hi, n, hblock⟩ := Frame.exists_of_mem_accesses_blocks ha
  obtain ⟨names, hnames, hmem, hlength⟩ := m.exists_numbers
  have hfew : m.firstSlot + names.length ≤ UInt16.size := hlength ▸ Nat.le_of_lt hslots
  have hlocals : (emitted classes m).locals = m.firstSlot + names.length :=
    (size_ofMethod_of_lt hslots).trans hlength
  rw [hlocals]
  rcases mem_accesses_block hblock with ⟨v, hv, rfl⟩ | ⟨rfl, c, hc⟩
  · have hv : v ∈ m.vars := List.mem_append_right _ (List.mem_flatMap.mpr ⟨i, hi, hv⟩)
    obtain ⟨r, hr⟩ := Option.isSome_iff_exists.mp (hasRegisters_ofMethod classes m v hv)
    rw [Frame.slot, hr]
    exact ((hnames.exists_get?_iff hfew).mp ⟨v.name, congrArg (Option.map UInt16.toNat) hr⟩).2
  · cases hstatic : m.isStatic with
    | true => exact absurd hc (hthis hstatic i hi c)
    | false =>
      rw [Ir.Method.firstSlot_of_instance hstatic]
      exact Nat.lt_of_lt_of_le Nat.zero_lt_one (Nat.le_add_right _ _)

/-- **The registers of a method are a complete map without repetition.** Its parameters come first,
the registers in use are a range, and the code that is emitted stays in that range or uses `this`. -/
theorem fills_of_slots_le {m : Ir.Method} (hparams : (m.params.map Var.name).Nodup)
    (hslots : m.slots ≤ 65535) :
    (Registers.ofMethod m).Fills m ∧
    (∀ classes limit name method,
      emitMethod classes limit m ≠ .error (.unknownVariable name method)) ∧
    ∀ classes limit e, emitMethod classes limit m = .ok e →
      (m.isStatic = true → ∀ i ∈ m.code, ∀ c, .this c ∉ i.operands) →
        ∀ r ∈ registers e.code, r.toNat < e.locals := by
  have hfew : m.slots < UInt16.size := Nat.lt_succ_of_le hslots
  exact ⟨fills_ofMethod hparams hfew,
    fun classes limit => emitMethod_ne_unknownVariable classes limit m,
    fun _ _ _ he hthis _ hr => toNat_lt_of_mem_registers hfew he hthis hr⟩

/-- An instance method with two parameters and another variable, that uses `this`. -/
theorem fills_of_slots_le_instance : ∃ m : Ir.Method, (m.params.map Var.name).Nodup ∧
    m.slots = 4 ∧ (∃ e, emitMethod ⟨"A", []⟩ none m = .ok e) ∧
    (Registers.ofMethod m).Fills m ∧
    (∀ classes limit name method,
      emitMethod classes limit m ≠ .error (.unknownVariable name method)) ∧
    ∀ classes limit e, emitMethod classes limit m = .ok e →
      (m.isStatic = true → ∀ i ∈ m.code, ∀ c, .this c ∉ i.operands) →
        ∀ r ∈ registers e.code, r.toNat < e.locals := by
  let m : Ir.Method :=
    { name := "f", isPublic := true, isStatic := false, returnType := .int32
      params := [⟨"a", .int32⟩, ⟨"b", .boolean⟩]
      code := [.assign ⟨"x", .int32⟩ (.getField (.this "A") ⟨"n", .int32⟩),
        .branch (.var ⟨"b", .boolean⟩) "if_then_0",
        .assign ⟨"x", .int32⟩ (.binary .add (.var ⟨"x", .int32⟩) (.var ⟨"a", .int32⟩)),
        .label "if_then_0", .ret (some (.var ⟨"x", .int32⟩))] }
  have hparams : (m.params.map Var.name).Nodup := by decide
  have hslots : m.slots = 4 := by decide
  have hblocks : m.code.all Ir.Instr.hasBlock = true := by decide
  exact ⟨m, hparams, hslots, ⟨_, emitMethod_eq_ok.mpr ⟨nofun, hblocks, rfl⟩⟩,
    fills_of_slots_le hparams (by omega)⟩

end Jvm

end MiniJava
