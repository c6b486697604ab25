import MiniJava.Proofs.Optimize.Lowering

/-!
# The limits of optimized programs

An accepted program that is compiled without being optimized is also compiled, under the same limit,
when it is optimized, and then no method needs more registers or a deeper stack
(`exists_compile_optimize_of_compile`). For this the methods of the unoptimized program must have
fewer than 65536 registers each: registers are counted by words, so a method with 65536 of them
counts none, and keeps to a limit to which it does not keep with one register less.

Each pass of the optimizer makes the methods `Slimmer`, and this is transitive.
-/

namespace MiniJava

open Ir

/-! ## Slimmer methods -/

/-- The second method takes the place of the first, and needs no more. -/
structure Ir.Method.Slimmer (m m' : Method) : Prop where
  name : m'.name = m.name
  params : m'.params = m.params
  slots : m'.slots ≤ m.slots
  depth : ∀ d, (∀ i ∈ m.code, i.depth ≤ d) → ∀ i ∈ m'.code, i.depth ≤ d
  hasBlock : (∀ i ∈ m.code, i.hasBlock = true) → ∀ i ∈ m'.code, i.hasBlock = true

namespace Ir.Method.Slimmer

theorem trans {m m' m'' : Method} (h : m.Slimmer m') (h' : m'.Slimmer m'') : m.Slimmer m'' :=
  ⟨h'.name.trans h.name, h'.params.trans h.params, h'.slots.trans h.slots,
    fun d hd => h'.depth d (h.depth d hd), fun hm => h'.hasBlock (h.hasBlock hm)⟩

/-- Lighter code makes a method slimmer, if parameters stand for themselves. -/
theorem of_codeLighter {m m' : Method} {Γ : String → String → Prop} (hname : m'.name = m.name)
    (hstatic : m'.isStatic = m.isStatic) (hparams : m'.params = m.params)
    (hcode : CodeLighter Γ m.code m'.code) (hself : ∀ v ∈ m.params, Γ v.name v.name)
    (hΓ : ∀ z x y, Γ z x → Γ z y → x = y) : m.Slimmer m' := by
  have hvars : VarsLighter Γ m.vars m'.vars := by
    refine .append ?_ hcode.vars
    rw [hparams]
    exact fun v hv => ⟨v, hv, hself v hv⟩
  exact ⟨hname, hparams, slots_le_slots hstatic hvars hΓ, fun d => hcode.depth, hcode.hasBlock⟩

end Ir.Method.Slimmer

/-! ## Lowering -/

section Lowering

open Lower

variable {t : SymbolTable} {n n' : Node}

theorem lowerParam_lightens (r : List String) (p : Node) :
    Lightens r (lowerParam p) (lowerParam p) fun _ => Eq := by
  unfold lowerParam
  split
  · exact .pure fun _ _ => rfl
  · exact .throw

/-- A method that is simplified has lighter code. -/
theorem lowerMethod_lightens (hclass : IsIdentifier t.className) (h : n.Reduces t n') :
    Lightens (Supply.ofTable t).reserved (lowerMethod (.ofMethod t) n)
      (lowerMethod (.ofMethod t) n') fun Γ m m' => m'.name = m.name ∧ m'.isStatic = m.isStatic ∧
        m'.params = m.params ∧ CodeLighter Γ m.code m'.code := by
  obtain ⟨head, params, locals, body, body', hkind, hkind', happroves, -, hbody⟩ := h
  have hbody := (List.forall₂_and_left _ _).mpr
    ⟨fun c hc => happroves.statement (m := c) hkind hc, hbody⟩
  have hcode := Scope.lowerStmts_lightens <| hbody.imp fun c c' hboth => by
    obtain ⟨⟨happroves, hstmt, hmethods⟩, hsimplified⟩ := hboth
    exact Scope.lowerStmt_lightens rfl hclass (reserves_ofTable t head) hsimplified happroves hstmt
      hmethods
  have hparams := Lightens.mapM (List.forall₂_same.mpr fun p (_ : p ∈ params) =>
    lowerParam_lightens (Supply.ofTable t).reserved p)
  simp only [lowerMethod, hkind, hkind']
  refine hparams.bind fun vs vs' _ => hcode.bind fun p p' _ => .pure fun Γ _ hp hvs => ?_
  rw [List.forall₂_eq_eq_eq] at hvs
  -- A return may be added on either side, which needs nothing.
  have hbefore (b : Bool) : p ⊆ if b then p ++ [.ret none] else p := by
    split
    · exact List.subset_append_left p _
    · exact List.Subset.refl p
  have hafter (b : Bool) : CodeLighter Γ p (if b then p' ++ [.ret none] else p') := by
    split
    · exact hp.concat_free Instr.isFree_ret
    · exact hp
  exact ⟨rfl, rfl, hvs.symm, (hafter _).of_subset (hbefore _)⟩

/-- **A method that is simplified again and again is slimmer.** -/
theorem lowerMethod_slims (hclass : IsIdentifier t.className) {head : MethodHead}
    {params locals body : List Node} (hkind : n.kind = .methodDecl head params locals body)
    (happroves : (Scope.ofMethod t head).Approves n)
    (h : Relation.ReflTransGen (Node.Reduces t) n n') :
    Lightens (Supply.ofTable t).reserved (lowerMethod (.ofMethod t) n)
      (lowerMethod (.ofMethod t) n') fun _ m m' =>
        (∀ v ∈ m.params, v.name ∈ (Supply.ofTable t).reserved) → m.Slimmer m' := by
  have hstep {a b : Node} (h : a.Reduces t b) :
      Lightens (Supply.ofTable t).reserved (lowerMethod (.ofMethod t) a)
        (lowerMethod (.ofMethod t) b) fun _ m m' =>
          (∀ v ∈ m.params, v.name ∈ (Supply.ofTable t).reserved) → m.Slimmer m' := by
    refine (lowerMethod_lightens hclass h).close fun Γ m m' hr hΓ hm hparams => ?_
    obtain ⟨hname, hstatic, hparams', hcode⟩ := hm
    exact .of_codeLighter hname hstatic hparams' hcode (fun v hv => hr _ (hparams v hv)) hΓ
  induction h with
  | refl =>
    exact hstep ⟨head, params, locals, body, body, hkind, hkind, happroves, happroves,
      List.forall₂_same.mpr fun c _ => .refl t _ c⟩
  | tail _ hlast ih =>
    refine (ih.trans (hstep hlast)).mono fun _ m m'' ⟨m', hm, hm'⟩ hparams => ?_
    have hslimmer := hm hparams
    exact hslimmer.trans (hm' (hslimmer.params ▸ hparams))

/-- The names of parameters are reserved. -/
theorem Accepted.mem_reserved_of_lower {source : String} {root : Node} {table : SymbolTable}
    (h : Accepted source root table) {unit : ClassUnit} (hlower : lower table root = .ok unit)
    {m : Method} (hm : m ∈ unit.methods) {v : Var} (hv : v ∈ m.params) :
    v.name ∈ (Supply.ofTable table).reserved := by
  obtain ⟨n, hn, s, s', -, hrun⟩ := exists_of_forall₂ (forall₂_lowerMethod hlower) hm
  obtain ⟨head, params, locals, body, code, hkind, -, -, -, hparams, -⟩ := lowerMethod_eq_ok hrun
  rw [hparams] at hv
  obtain ⟨d, hd, rfl⟩ := List.mem_map.mp hv
  exact mem_reserved_of_param (h.params?_eq hn hkind).1 hd

/-- **The optimized program has three-address code if the program has, and its methods are
slimmer.** -/
theorem Accepted.exists_lower_of_lowers {source : String} {root root' : Node} {table : SymbolTable}
    (h : Accepted source root table) {options : CompileOptions}
    (hroot' : options.Lowers table root root') {unit : ClassUnit}
    (hlower : lower table root = .ok unit) :
    ∃ unit', lower table root' = .ok unit' ∧
      List.Forall₂ Method.Slimmer unit.methods unit'.methods := by
  have hreduces := (List.forall₂_and_left _ _).mpr ⟨fun n hn => hn, (h.sound_of_lowers hroot').2⟩
  have hmethods := Lightens.mapM (hreduces.imp fun n n' ⟨hn, hsteps⟩ => by
    obtain ⟨head, params, locals, body, hkind, happroves⟩ := h.approves hn
    exact lowerMethod_slims h.isIdentifier_className hkind happroves hsteps)
  obtain ⟨s₁, hrun⟩ := lower_eq_ok hlower
  obtain ⟨ms', s₁', hrun', hslimmer⟩ := hmethods.exists_run rfl hrun (.ofTable table)
  have hlower' : ∃ unit', lower table root' = .ok unit' ∧ unit'.methods = ms' := by
    unfold lower lowerWith StateT.run'
    unfold StateT.run at hrun'
    rw [hrun']
    exact ⟨_, rfl, rfl⟩
  obtain ⟨unit', hlower', rfl⟩ := hlower'
  have hmem := (List.forall₂_and_left _ _).mpr ⟨fun m hm => hm, hslimmer⟩
  exact ⟨unit', hlower', hmem.imp fun m m' ⟨hm, hm'⟩ =>
    hm' fun v hv => h.mem_reserved_of_lower hlower hm hv⟩

end Lowering

/-! ## Emission -/

namespace Jvm

variable {m m' : Method}

/-- A slimmer method needs no more registers, if these can be counted. -/
theorem locals_emitted_le (h : m.Slimmer m') (hslots : m.slots < UInt16.size)
    (classes classes' : ClassNames) :
    (emitted classes' m').locals ≤ (emitted classes m).locals := by
  change (Registers.ofMethod m').size ≤ (Registers.ofMethod m).size
  rw [size_ofMethod_of_lt hslots, size_ofMethod_of_lt (h.slots.trans_lt hslots)]
  exact h.slots

/-- A slimmer method needs no deeper stack. -/
theorem stackLimit_emitted_le (h : m.Slimmer m') (hm : ∀ i ∈ m.code, i.Tidy)
    (hm' : ∀ i ∈ m'.code, i.Tidy) (classes classes' : ClassNames) :
    (emitted classes' m').stackLimit ≤ (emitted classes m).stackLimit :=
  (stackLimit_emitted_le_iff hm' classes' _).mpr
    (h.depth _ ((stackLimit_emitted_le_iff hm classes _).mp (Nat.le_refl _)))

/-- A slimmer method is emitted where the method is. -/
theorem exists_emitMethod_of_slimmer (h : m.Slimmer m') (hslots : m.slots < UInt16.size)
    {classes : ClassNames} {limit : Option Nat} {e : EmittedMethod}
    (he : emitMethod classes limit m = .ok e) (classes' : ClassNames) :
    ∃ e', emitMethod classes' limit m' = .ok e' := by
  obtain ⟨hlimit, hblocks, -⟩ := emitMethod_eq_ok.mp he
  rw [List.all_eq_true] at hblocks
  refine ⟨_, emitMethod_eq_ok.mpr ⟨fun l hl => ?_, List.all_eq_true.mpr (h.hasBlock hblocks), rfl⟩⟩
  exact (locals_emitted_le h hslots classes classes').trans (hlimit l hl)

end Jvm

/-! ## Compiling -/

open Jvm (IsAssembly emitted)

variable {source : String} {root : Node} {table : SymbolTable} {options : CompileOptions}
  {compiled : Compiled}

/-- **Optimizing never makes a program harder to compile**, if its registers can be counted. Where it
is compiled without being optimized, it is compiled under the same limit when it is optimized, and
then no method declares more registers or a deeper stack. -/
theorem exists_compile_optimize_of_compile (h : Accepted source root table)
    (hslots : ∀ unit, lower table root = .ok unit → ∀ m ∈ unit.methods, m.slots < UInt16.size)
    (hcompile : compile { options with optimize := false } source = .ok compiled) :
    ∃ compiled', compile { options with optimize := true } source = .ok compiled' ∧
      ∃ es es', IsAssembly compiled.assembly es ∧ IsAssembly compiled'.assembly es' ∧
        List.Forall₂ (fun n e => n.kind.declaredName? = some e.name) root.methods es ∧
        List.Forall₂ (fun e e' => e'.name = e.name ∧ e'.locals ≤ e.locals ∧
          e'.stackLimit ≤ e.stackLimit) es es' := by
  obtain ⟨root₀, hroot₀, unit, hlower, text, htext, rfl⟩ := h.compile_eq_ok.mp hcompile
  obtain rfl : root₀ = root := hroot₀
  obtain ⟨root', stats, hoptimize, -⟩ := h.sound.exists_optimize
  have hlowers : ({ options with optimize := true } : CompileOptions).Lowers table root₀ root' :=
    ⟨stats, hoptimize⟩
  obtain ⟨unit', hlower', hslimmer⟩ := h.exists_lower_of_lowers hlowers hlower
  have hmem := (List.forall₂_and_left _ _).mpr ⟨fun m hm => hm, hslimmer⟩
  obtain ⟨text', htext'⟩ : ∃ text', Jvm.assemble options.registerLimit unit' = .ok text' := by
    refine Jvm.exists_assemble_eq_ok.mpr fun m' hm' => ?_
    obtain ⟨m, -, hm, hmm'⟩ := exists_of_forall₂ hmem hm'
    obtain ⟨e, he⟩ := Jvm.exists_assemble_eq_ok.mp ⟨text, htext⟩ m hm
    exact Jvm.exists_emitMethod_of_slimmer hmm' (hslots unit hlower m hm) he _
  refine ⟨_, h.compile_eq_ok.mpr ⟨root', hlowers, unit', hlower', text', htext', rfl⟩,
    unit.methods.map (emitted (.ofUnit unit)), unit'.methods.map (emitted (.ofUnit unit')),
    Jvm.isAssembly_of_assemble htext, Jvm.isAssembly_of_assemble htext', ?_, ?_⟩
  · rw [List.forall₂_map_right_iff]
    refine (forall₂_lowerMethod hlower).imp fun n m ⟨s, s', _, hrun⟩ => ?_
    obtain ⟨head, params, locals, body, code, hkind, -, hname, -⟩ := lowerMethod_eq_ok hrun
    rw [hkind]
    exact congrArg some hname.symm
  · rw [List.forall₂_map_left_iff, List.forall₂_map_right_iff]
    have hmem' := (List.forall₂_and_left _ _).mpr ⟨fun m hm => hm, hmem.flip⟩
    refine hmem'.flip.imp fun m m' ⟨hm', hm, hmm'⟩ => ⟨hmm'.name, ?_, ?_⟩
    · exact Jvm.locals_emitted_le hmm' (hslots unit hlower m hm) _ _
    · exact Jvm.stackLimit_emitted_le hmm' (regular_of_lower hlower hm).tidy
        (regular_of_lower hlower' hm').tidy _ _

/-- A sum of variables that are known, which takes fewer registers when it is optimized. -/
theorem exists_compile_optimize_of_compile_sum : ∃ root table compiled compiled',
    Accepted "class A{int f(int a){int x;x=2;return a*(x+3);}}" root table ∧
    (∀ unit, lower table root = .ok unit → ∀ m ∈ unit.methods, m.slots < UInt16.size) ∧
    compile {} "class A{int f(int a){int x;x=2;return a*(x+3);}}" = .ok compiled ∧
    compile { optimize := true } "class A{int f(int a){int x;x=2;return a*(x+3);}}" =
      .ok compiled' ∧
      ∃ es es', IsAssembly compiled.assembly es ∧ IsAssembly compiled'.assembly es' ∧
        List.Forall₂ (fun n e => n.kind.declaredName? = some e.name) root.methods es ∧
        List.Forall₂ (fun e e' => e'.name = e.name ∧ e'.locals ≤ e.locals ∧
          e'.stackLimit ≤ e.stackLimit) es es' := by
  obtain ⟨root, table, h, hp⟩ := Accepted.exists_of_any
    "class A{int f(int a){int x;x=2;return a*(x+3);}}"
    (fun root table => match lower table root with
      | .ok unit => (unit.methods.all fun m => m.code.all Ir.Instr.hasBlock) &&
          unit.methods.all fun m => m.slots < UInt16.size
      | .error _ => false)
    (by decide +kernel)
  split at hp
  · rename_i unit hlower
    obtain ⟨hblocks, hsmall⟩ := Bool.and_eq_true_iff.mp hp
    obtain ⟨compiled, hcompile, -⟩ := h.exists_compile_eq_ok hlower hblocks
    have hslots : ∀ unit', lower table root = .ok unit' → ∀ m ∈ unit'.methods,
        m.slots < UInt16.size := by
      intro unit' hlower' m hm
      cases hlower.symm.trans hlower'
      exact of_decide_eq_true (List.all_eq_true.mp hsmall m hm)
    obtain ⟨compiled', hcompile', hes⟩ :=
      @exists_compile_optimize_of_compile _ _ _ {} _ h hslots hcompile
    exact ⟨root, table, compiled, compiled', h, hslots, hcompile, hcompile', hes⟩
  · cases hp

end MiniJava
