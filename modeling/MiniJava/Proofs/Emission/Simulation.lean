import MiniJava.Proofs.Emission.Execution
import MiniJava.Proofs.Emission.Labels
import MiniJava.Proofs.Lowering.WellTyped

/-!
# Emitted code behaves like three-address code

The machine that executes the emitted code goes from block to block as three-address code goes from
instruction to instruction (`Corresponds.step`), so the two runs correspond as long as they go on,
and end alike (`Corresponds.run`). A jump out of a block leads to the block behind the label, for
the labels of comparisons are those of no construct (`behind?_blocks`).

The numbers of registers are 16-bit words. In a method with more variables than there are words two
variables share a register, or one has that of `this`; so the main result,
`corresponds_of_emitMethod`, asks for no more slots than words.
-/

namespace MiniJava

open Ir (BinOp Call IrType IsLabel Operand Rhs Var)

namespace Jvm

variable {w : World Effect MiniJava.Val} {fr : Frame} {n : Nat} {i : Ir.Instr} {is : Ir.Code}

/-! ## Places -/

/-- Behind some blocks come those of the instructions that are left. -/
theorem drop_blocks (j : Nat) : ∃ n', (fr.blocks n is).drop j = fr.blocks n' (is.drop j) := by
  induction j generalizing n is with
  | zero => exact ⟨n, rfl⟩
  | succ j ih =>
    cases is with
    | nil => exact ⟨n, rfl⟩
    | cons i is => exact ih

variable (w fr n is) in
/-- A jump to the label of a construct leads to the same place in both codes. -/
theorem behind?_blocks {l : String} (hl : IsLabel l) :
    match (Ir.language fr.classes.effect w).behind? l is with
    | some rest => ∃ j, rest = is.drop j ∧
      (encoded w).behind? l (fr.blocks n is).flatten = some ((fr.blocks n is).drop j).flatten
    | none => (encoded w).behind? l (fr.blocks n is).flatten = none := by
  induction is generalizing n with
  | nil => rfl
  | cons i is ih =>
    by_cases hi : i.label? = some l
    · have hbehind : (Ir.language fr.classes.effect w).behind? l (i :: is) = some is := if_pos hi
      rw [hbehind]
      cases i with
      | label name =>
        cases hi
        exact ⟨1, rfl, if_pos rfl⟩
      | _ => cases hi
    · have hbehind : (Ir.language fr.classes.effect w).behind? l (i :: is) =
          (Ir.language fr.classes.effect w).behind? l is := if_neg hi
      have hnot : l ∉ (encoded w).labels (fr.block n i) := fun hmem =>
        hi ((mem_labels_block hl).mp hmem)
      have hplace := ih (n + i.comparisons)
      rw [hbehind, Frame.blocks, List.flatten_cons, Language.behind?_append_of_not_mem hnot]
      split at hplace
      · obtain ⟨j, hrest, hplace⟩ := hplace
        exact ⟨j + 1, hrest, hplace⟩
      · exact hplace

/-! ## Simulation -/

/-- The machine has come to the same place: it is in front of the block of the next instruction, its
stack is empty, each variable is in its register, and the effects were the same. -/
structure Corresponds (fr : Frame) (m : Ir.Method) (this : MiniJava.Val)
    (blocks : List (List Instr)) (s : Running Ir.Instr Vars Effect)
    (t : Running Instr Locals Effect) : Prop where
  place : ∃ j, s.rest = m.code.drop j ∧ t.rest = (blocks.drop j).flatten
  empty : t.locals.stack = []
  holds : fr.Holds m this s.locals t.locals.registers
  trace : t.trace = s.trace

variable {u : Ir.ClassUnit} {m : Ir.Method} {vars vars' : Vars} {h h' : List Effect}
  {s : Running Ir.Instr Vars Effect} {t : Running Instr Locals Effect}

/-- Well-typed code jumps to labels of constructs. -/
theorem isLabel_of_jump {ctx : Ir.Context} {target : String} (hi : i.WellTyped ctx)
    (hrun : (i.act fr.classes.effect w vars).run h = (.ok (.jump target vars'), h')) :
    IsLabel target := by
  cases i with
  | goto label =>
    cases hrun
    exact hi
  | branch condition label =>
    simp only [Ir.Instr.act, Act.run_bind] at hrun
    split at hrun
    · split at hrun
      · cases hrun
        exact hi.2.2
      · cases hrun
    · cases hrun
  | ret value => cases hrun
  | label name => cases hrun
  | _ =>
    simp only [Ir.Instr.act, Act.run_bind] at hrun
    split at hrun <;> cases hrun

theorem nodup_labels_code (hfr : fr.Suits u m) :
    ((encoded w).labels (fr.blocks n m.code).flatten).Nodup :=
  nodup_labels_blocks (fun _ hl => hfr.wellTyped.code _ (Ir.mem_labels.mp hl))
    hfr.wellTyped.labels

/-- **One instruction, and its block.** -/
theorem Corresponds.step (hfr : fr.Suits u m) (hw : Answers w)
    (hblocks : m.code.all Ir.Instr.hasBlock = true)
    (hs : Corresponds fr m w.this (fr.blocks n m.code) s t) :
    match ((Ir.language fr.classes.effect w).machine m.code).step s with
    | .running s' => ∃ t', Corresponds fr m w.this (fr.blocks n m.code) s' t' ∧
      ((encoded w).machine (fr.blocks n m.code).flatten).Advances t (.running t')
    | .finished o h => ((encoded w).machine (fr.blocks n m.code).flatten).Advances t
      (.finished (o.map MiniJava.Val.encode) h) := by
  obtain ⟨⟨j, hrest, hrest'⟩, hempty, hr, htrace⟩ := hs
  obtain ⟨rest, vars, h'⟩ := s
  obtain ⟨rest', ⟨stack, r⟩, h⟩ := t
  dsimp only at hrest hrest' hempty hr htrace
  subst hrest hrest' hempty htrace
  obtain ⟨n', hdrop⟩ : ∃ n', (fr.blocks n m.code).drop j = fr.blocks n' (m.code.drop j) :=
    drop_blocks j
  cases hcode : m.code.drop j with
  | nil =>
    rw [hdrop, hcode]
    exact .single rfl
  | cons i is =>
    have hmem : i ∈ m.code := List.mem_of_mem_drop (hcode ▸ List.mem_cons_self)
    have hnext : is = m.code.drop (j + 1) := by
      rw [← List.tail_drop, hcode, List.tail_cons]
    have hblock : (fr.blocks n m.code).drop j = fr.block n' i ::
        (fr.blocks n m.code).drop (j + 1) := by
      rw [← List.tail_drop, hdrop, hcode, Frame.blocks, List.tail_cons]
    have hflatten : ((fr.blocks n m.code).drop j).flatten =
        fr.block n' i ++ ((fr.blocks n m.code).drop (j + 1)).flatten := by
      rw [hblock, List.flatten_cons]
    have hsuffix : fr.block n' i ++ ((fr.blocks n m.code).drop (j + 1)).flatten <:+
        (fr.blocks n m.code).flatten := by
      rw [← hflatten]
      exact ⟨((fr.blocks n m.code).take j).flatten, by
        rw [← List.flatten_append, List.take_append_drop]⟩
    have hdoes := Frame.does_block hfr hw (nodup_labels_code hfr) hr hmem
      (List.all_eq_true.mp hblocks i hmem) (n := n') _ hsuffix h
    rw [hflatten]
    cases hrun : (i.act fr.classes.effect w vars).run h with
    | mk result h₁ =>
      rw [hrun] at hdoes
      cases result with
      | error o =>
        rw [Language.step_of_error hrun]
        exact hdoes
      | ok next =>
        obtain ⟨next', hmatches, hadvances⟩ := hdoes
        cases hmatches with
        | fall hr' =>
          rw [Language.step_of_fall hrun]
          exact ⟨_, ⟨⟨j + 1, hnext, rfl⟩, rfl, hr', rfl⟩, hadvances⟩
        | @jump vars' r' target hr' =>
          have hplace := behind?_blocks w fr n m.code
            (isLabel_of_jump (hfr.wellTyped.code i hmem) hrun)
          rw [Language.step_of_ok hrun]
          unfold Language.resume at hadvances ⊢
          dsimp only at hadvances ⊢
          split at hplace
          · rename_i rest hbehind
            obtain ⟨j', rfl, hbehind'⟩ := hplace
            rw [hbehind]
            rw [hbehind'] at hadvances
            exact ⟨_, ⟨⟨j', rfl, rfl⟩, rfl, hr', rfl⟩, hadvances⟩
          · rename_i hbehind
            rw [hbehind]
            rw [hplace] at hadvances
            exact hadvances

/-- **A run of three-address code, and the run of its blocks.** After any number of instructions the
machine has come to the same place, by at least as many steps, or both runs have ended alike. -/
theorem Corresponds.run (hfr : fr.Suits u m) (hw : Answers w)
    (hblocks : m.code.all Ir.Instr.hasBlock = true)
    (hs : Corresponds fr m w.this (fr.blocks n m.code) s t) (k : Nat) :
    match ((Ir.language fr.classes.effect w).machine m.code).run k s with
    | .running s' => ∃ k' t', k ≤ k' ∧ Corresponds fr m w.this (fr.blocks n m.code) s' t' ∧
      ((encoded w).machine (fr.blocks n m.code).flatten).run k' t = .running t'
    | .finished o h => ∃ k', ((encoded w).machine (fr.blocks n m.code).flatten).run k' t =
      .finished (o.map MiniJava.Val.encode) h := by
  induction k generalizing s t with
  | zero => exact ⟨0, t, Nat.le_refl 0, hs, rfl⟩
  | succ k ih =>
    have hstep := hs.step hfr hw hblocks
    simp only [Machine.run]
    cases hone : ((Ir.language fr.classes.effect w).machine m.code).step s with
    | finished o h =>
      rw [hone] at hstep
      obtain ⟨k₁, hrun⟩ := hstep
      exact ⟨k₁ + 1, hrun⟩
    | running s₁ =>
      rw [hone] at hstep
      obtain ⟨t₁, hs₁, k₁, hrun⟩ := hstep
      have hrest := ih hs₁
      dsimp only
      split <;> rename_i heq <;> rw [heq] at hrest
      · obtain ⟨k₂, t₂, hk₂, hs₂, hrun₂⟩ := hrest
        exact ⟨k₁ + 1 + k₂, t₂, by omega, hs₂, (Machine.run_add_of_running hrun k₂).trans hrun₂⟩
      · obtain ⟨k₂, hrun₂⟩ := hrest
        exact ⟨k₁ + 1 + k₂, (Machine.run_add_of_running hrun k₂).trans hrun₂⟩

/-! ## Methods -/

instance (v : MiniJava.Val) (s : ElementSort) : Decidable (v.HasSort s) :=
  match v, s with
  | .int _, .int | .bool _, .boolean | .ref _, .ref | .cls _, _ => isTrue trivial
  | .int _, .boolean | .int _, .ref | .bool _, .int | .bool _, .ref | .ref _, .int
  | .ref _, .boolean => isFalse id

/-- There are registers that hold given values of the variables. -/
theorem Frame.Suits.exists_holds (hfr : fr.Suits u m) {this : MiniJava.Val}
    (hvars : ∀ v ∈ m.vars, (vars v.name).HasType v.type)
    (hthis : m.isStatic = false → this.HasSort .ref) : ∃ r, fr.Holds m this vars r := by
  refine ⟨fun k => match m.vars.find? (fr.slot · = k) with
    | some v => (vars v.name).encode
    | none => this.encode, fun v hv => ⟨?_, hvars v hv⟩, fun hm => ⟨?_, hthis hm⟩⟩
  · split
    · rename_i v' hfind
      have hslot : fr.slot v' = fr.slot v := by simpa using List.find?_some hfind
      rw [hfr.slot_inj (List.mem_of_find?_eq_some hfind) hv hslot]
    · rename_i hnone
      exact absurd (List.find?_eq_none.mp hnone v hv) (by simp)
  · split
    · rename_i v hfind
      have hslot : fr.slot v = 0 := by simpa using List.find?_some hfind
      exact absurd hslot (hfr.slot_ne_zero (List.mem_of_find?_eq_some hfind) hm)
    · rfl

/-- The frame of a method of an accepted program suits it, if there are registers enough. -/
theorem suits_ofMethod {source : String} {root : Node} {table : SymbolTable}
    (h : Accepted source root table) {unit : Ir.ClassUnit} (hlower : lower table root = .ok unit)
    (hm : m ∈ unit.methods) (hslots : m.slots ≤ UInt16.size) {classes : ClassNames} :
    (Frame.ofMethod classes m).Suits unit m :=
  ⟨method_wellTyped_of_lower h hlower hm, rfl, Ir.Method.hasOwnRegisters_iff.mpr hslots⟩

/-- **Emitted code does what three-address code does, block by block.** This holds of every method
of an accepted program whose variables have registers of their own: from registers that hold the
variables, after any number of instructions the machine is in front of the block of the next
instruction with an empty stack, each variable is in its register, and the effects were the same; or
both runs have ended, with the same value or exception. -/
theorem corresponds_of_emitMethod {source : String} {root : Node} {table : SymbolTable}
    (h : Accepted source root table) {unit : Ir.ClassUnit} (hlower : lower table root = .ok unit)
    {m : Ir.Method} (hm : m ∈ unit.methods) {classes : ClassNames} {limit : Option Nat}
    {e : EmittedMethod} (hemit : emitMethod classes limit m = .ok e)
    (hslots : m.slots ≤ UInt16.size) {w : World Effect MiniJava.Val} (hw : Answers w) {vars : Vars}
    {r : UInt16 → Val} (hr : (Frame.ofMethod classes m).Holds m w.this vars r) :
    ∃ blocks, (m.code.mapM (Frame.ofMethod classes m).instr).run' {} = .ok blocks ∧
      e.code = blocks.flatten ∧ ∀ n,
        match ((Ir.language classes.effect w).machine m.code).run n ⟨m.code, vars, []⟩ with
        | .running s => ∃ k t, n ≤ k ∧ Corresponds (Frame.ofMethod classes m) m w.this blocks s t ∧
          ((language (w.map MiniJava.Val.encode)).machine e.code).run k ⟨e.code, ⟨[], r⟩, []⟩ =
            .running t
        | .finished o h => ∃ k,
          ((language (w.map MiniJava.Val.encode)).machine e.code).run k ⟨e.code, ⟨[], r⟩, []⟩ =
            .finished (o.map MiniJava.Val.encode) h := by
  obtain ⟨-, hall, rfl⟩ := emitMethod_eq_ok.mp hemit
  obtain ⟨n, hmakes⟩ := code_makes_ofMethod classes m
  refine ⟨(Frame.ofMethod classes m).blocks 0 m.code, ?_, rfl, ?_⟩
  · rw [StateT.run'_eq, hmakes.run hall]
    rfl
  · have hstart : Corresponds (Frame.ofMethod classes m) m w.this
        ((Frame.ofMethod classes m).blocks 0 m.code) ⟨m.code, vars, []⟩
        ⟨(emitted classes m).code, ⟨[], r⟩, []⟩ :=
      ⟨⟨0, rfl, rfl⟩, rfl, hr, rfl⟩
    have hfr : (Frame.ofMethod classes m).Suits unit m := suits_ofMethod h hlower hm hslots
    exact fun n => hstart.run hfr hw hall n

/-- A world that answers with one value of each sort. -/
def answering : World Effect MiniJava.Val where
  this := .ref 1
  reply _ e := .returned (e.result?.map fun
    | .boolean => .bool true
    | .int => .int 7
    | .ref => .ref 2)

theorem answers_answering : Answers answering := by
  intro h e s hs v hv
  cases hv
  rw [hs]
  cases s <;> exact ⟨_, rfl, trivial⟩

/-- The values of two parameters. The other variables have none. -/
def parameters (a : Int32) (b : Bool) : Vars
  | "a" => .int a
  | "b" => .bool b
  | _ => .cls ""

/-- A loop with a comparison in an argument, from registers that hold the parameters. -/
theorem corresponds_of_emitMethod_loop : ∃ root table unit m e r,
    Accepted "class A{int f(int a,boolean b){while(a<9&&b)a=this.f(a,1<a);return a;}}" root table ∧
      lower table root = .ok unit ∧ m ∈ unit.methods ∧
      emitMethod (.ofUnit unit) none m = .ok e ∧ m.slots ≤ UInt16.size ∧ Answers answering ∧
      (Frame.ofMethod (.ofUnit unit) m).Holds m answering.this (parameters 3 true) r ∧
      ∃ blocks, (m.code.mapM (Frame.ofMethod (.ofUnit unit) m).instr).run' {} = .ok blocks ∧
        e.code = blocks.flatten ∧ ∀ n,
          match ((Ir.language (ClassNames.ofUnit unit).effect answering).machine m.code).run n
            ⟨m.code, parameters 3 true, []⟩ with
          | .running s => ∃ k t, n ≤ k ∧
            Corresponds (Frame.ofMethod (.ofUnit unit) m) m answering.this blocks s t ∧
            ((language (answering.map MiniJava.Val.encode)).machine e.code).run k
              ⟨e.code, ⟨[], r⟩, []⟩ = .running t
          | .finished o h => ∃ k,
            ((language (answering.map MiniJava.Val.encode)).machine e.code).run k
              ⟨e.code, ⟨[], r⟩, []⟩ = .finished (o.map MiniJava.Val.encode) h := by
  obtain ⟨root, table, h, hp⟩ := Accepted.exists_of_any
    "class A{int f(int a,boolean b){while(a<9&&b)a=this.f(a,1<a);return a;}}"
    (fun root table => match lower table root with
      | .ok unit => unit.methods.any fun m => m.code.all Ir.Instr.hasBlock &&
        decide (m.slots ≤ UInt16.size ∧ ∀ v ∈ m.vars, (parameters 3 true v.name).HasType v.type)
      | .error _ => false)
    (by decide +kernel)
  split at hp
  · rename_i unit hlower
    obtain ⟨m, hm, hp⟩ := List.any_eq_true.mp hp
    obtain ⟨hcode, hp⟩ := (Bool.and_eq_true _ _).mp hp
    obtain ⟨hslots, htypes⟩ := of_decide_eq_true hp
    have hemit : emitMethod (.ofUnit unit) none m = .ok (emitted (.ofUnit unit) m) :=
      emitMethod_eq_ok.mpr ⟨nofun, hcode, rfl⟩
    obtain ⟨r, hr⟩ := (suits_ofMethod h hlower hm hslots).exists_holds htypes fun _ =>
      show answering.this.HasSort .ref from trivial
    exact ⟨root, table, unit, m, _, r, h, hlower, hm, hemit, hslots, answers_answering, hr,
      corresponds_of_emitMethod h hlower hm hemit hslots answers_answering hr⟩
  · cases hp

end Jvm

end MiniJava
