import Mathlib.Logic.Relation
import MiniJava.Proofs.Emission.Success
import MiniJava.Proofs.Optimize.Typing
import MiniJava.Proofs.Stages

/-!
# Compiled programs

What `compile` does with an accepted program: it optimizes it if it is told to, and what comes out
has three-address code and assembly (`Accepted.compile_eq_ok`).

The optimizer goes through rounds of passes, each of which simplifies the bodies of the methods and
leaves their heads alone. So each method of the optimized program comes from the one at its place by
steps of this kind (`Node.Reduces`), between methods that pass the checks
(`Node.Sound.exists_optimize`).
-/

namespace MiniJava

variable {t : SymbolTable}

namespace Node

/-! ## Simplified methods -/

/-- Parameters and variables have no parts that could be simplified. -/
theorem Simplified.eq_of_declaration {around : Option Scope} {n n' : Node}
    (h : Simplified t around n n') (hn : n.label = .param ∨ n.label = .varDecl) : n' = n := by
  cases h with
  | literal c hexpr =>
    rcases hn with hn | hn
    all_goals
      rw [IsExpr, hn] at hexpr
      cases hexpr
  | @keep around i p k =>
    cases k with
    | param | varDecl => rfl
    | _ => rcases hn with hn | hn <;> cases hn

theorem Simplified.eq_of_declarations {around : Option Scope} {ns : List (Node × Node)}
    (h : ∀ x ∈ ns, Simplified t around x.1 x.2)
    (hns : ∀ n ∈ ns.map Prod.fst, n.label = .param ∨ n.label = .varDecl) :
    ns.map Prod.snd = ns.map Prod.fst :=
  List.map_congr_left fun x hx =>
    (h x hx).eq_of_declaration (hns x.1 (List.mem_map_of_mem hx))

/-- **When a method is simplified, only its body is.** -/
theorem Simplified.of_method {around : Option Scope} {m m' : Node} {head : MethodHead}
    {params locals body : List Node} (h : Simplified t around m m') (hm : m.WellFormed)
    (hkind : m.kind = .methodDecl head params locals body) :
    ∃ body', m'.kind = .methodDecl head params locals body' ∧
      List.Forall₂ (Simplified t (some (.ofMethod t head))) body body' := by
  have hfits := hm.fits
  cases h with
  | literal c hexpr =>
    rw [IsExpr, label, hkind] at hexpr
    cases hexpr
  | @keep around i p k below =>
    cases k with
    | methodDecl head' ps ls b =>
      cases hkind
      obtain ⟨hparams, hlocals, -⟩ := hfits
      have hps := Simplified.eq_of_declarations
        (fun x hx => below x (List.mem_append_left _ (List.mem_append_left _ hx)))
        fun n hn => .inl (hparams n hn)
      have hls := Simplified.eq_of_declarations
        (fun x hx => below x (List.mem_append_left _ (List.mem_append_right _ hx)))
        fun n hn => .inr (hlocals n hn)
      refine ⟨b.map Prod.snd, by rw [Kind.map, hps, hls], ?_⟩
      rw [List.forall₂_map_left_iff, List.forall₂_map_right_iff, List.forall₂_same]
      exact fun x hx => below x (List.mem_append_right _ hx)
    | _ => cases hkind

/-- The second method is the first with a simplified body, and both pass the checks. -/
def Reduces (t : SymbolTable) (m m' : Node) : Prop :=
  ∃ head params locals body body', m.kind = .methodDecl head params locals body ∧
    m'.kind = .methodDecl head params locals body' ∧ (Scope.ofMethod t head).Approves m ∧
    (Scope.ofMethod t head).Approves m' ∧
    List.Forall₂ (Simplified t (some (.ofMethod t head))) body body'

/-- A method that comes by simplifications has the same head, and it passes the checks. -/
theorem of_reduces {m m' : Node} (h : Relation.ReflTransGen (Reduces t) m m') {head : MethodHead}
    {params locals body : List Node} (hkind : m.kind = .methodDecl head params locals body)
    (happroves : (Scope.ofMethod t head).Approves m) :
    ∃ body', m'.kind = .methodDecl head params locals body' ∧
      (Scope.ofMethod t head).Approves m' := by
  induction h with
  | refl => exact ⟨body, hkind, happroves⟩
  | tail _ hstep ih =>
    obtain ⟨body', hkind', -⟩ := ih
    obtain ⟨_, _, _, _, after, hbefore, hafter, -, happroves', -⟩ := hstep
    cases hkind'.symm.trans hbefore
    exact ⟨after, hafter, happroves'⟩

/-! ## Optimized programs -/

theorem Sound.approves {root : Node} (h : root.Sound t) {m : Node} (hm : m ∈ root.methods) :
    ∃ head params locals body, m.kind = .methodDecl head params locals body ∧
      (Scope.ofMethod t head).Approves m := by
  obtain ⟨hpre, hlabel⟩ := mem_preorder_of_mem_methods hm
  have hlabel := hlabel h.wellFormed
  cases hkind : m.kind with
  | methodDecl head params locals body =>
    exact ⟨head, params, locals, body, rfl, approves_of_analyze h.wellFormed h.checked hpre hkind⟩
  | _ => rw [label, hkind] at hlabel; cases hlabel

end Node

/-- A pass simplifies the methods one by one. -/
theorem Pass.forall₂_methods {root : Node} (h : root.Sound t) (p : Pass) :
    List.Forall₂ (Node.Simplified t none) root.methods (p.onTree t root).methods := by
  cases p with
  | propagation =>
    rw [onTree, methods_propagateConstants, List.forall₂_map_right_iff, List.forall₂_same]
    exact fun m hm => (h.isFitMethod hm).simplified none
  | folding =>
    rw [onTree, methods_foldConstants, List.forall₂_map_right_iff, List.forall₂_same]
    exact fun m _ => m.simplified_foldConstants t none

namespace Node

variable {root : Node}

/-- A pass reduces the methods. -/
theorem Sound.forall₂_reduces (h : root.Sound t) (p : Pass) :
    (p.onTree t root).Sound t ∧
      List.Forall₂ (Reduces t) root.methods (p.onTree t root).methods := by
  have hsound := h.simplified (p.simplified_onTree h)
  have hmem := (List.forall₂_and_left _ _).mpr ⟨fun m hm => hm, p.forall₂_methods h⟩
  have hmem' := (List.forall₂_and_left _ _).mpr ⟨fun m hm => hm, hmem.flip⟩
  refine ⟨hsound, hmem'.flip.imp fun m m' ⟨hm', hm, hsimplified⟩ => ?_⟩
  obtain ⟨head, params, locals, body, hkind, happroves⟩ := h.approves hm
  obtain ⟨body', hkind', hbody⟩ := hsimplified.of_method happroves.wellFormed hkind
  obtain ⟨head', _, _, _, hkind'', happroves'⟩ := hsound.approves hm'
  cases hkind'.symm.trans hkind''
  exact ⟨head, params, locals, body, body', hkind, hkind', happroves, happroves', hbody⟩

/-- **The optimizer comes to an end, with a program that passes the checks and whose methods come by
simplifications from those at their places.** -/
theorem Sound.exists_optimize (h : root.Sound t) :
    ∃ root' stats, optimize t root = .ok (root', stats) ∧ root'.Sound t ∧
      List.Forall₂ (Relation.ReflTransGen (Reduces t)) root.methods root'.methods := by
  let I (a : Node) : Prop :=
    a.Sound t ∧ List.Forall₂ (Relation.ReflTransGen (Reduces t)) root.methods a.methods
  have hpass (a : Node) (ha : I a) (p : Pass) : I (p.onTree t a) := by
    obtain ⟨hsound, hreduces⟩ := ha.1.forall₂_reduces p
    exact ⟨hsound, forall₂_trans (fun _ _ _ h h' => h.tail h') ha.2 hreduces⟩
  obtain ⟨root', stats, hoptimize, hroot'⟩ := exists_alternate (I := I)
    (R := fun a b => I a → I b) (count_propagateConstants t) count_fold
    (fun _ _ _ hab hbc ha => hbc (hab ha))
    (fun a ha => ⟨hpass _ (hpass a ha .propagation) .folding,
      fun _ => hpass _ (hpass a ha .propagation) .folding⟩)
    (root.size + 1) {} root ⟨h, List.forall₂_same.mpr fun _ _ => .refl⟩
    (Nat.lt_succ_of_le root.nonLiterals_le_size)
  exact ⟨root', stats, hoptimize, hroot' ⟨h, List.forall₂_same.mpr fun _ _ => .refl⟩⟩

end Node

/-! ## Compiling -/

/-! ### Assembly -/

namespace Jvm

open Ir (ClassUnit)

/-- The text is assembly with these methods behind the head of their class. -/
def IsAssembly (text : String) (es : List EmittedMethod) : Prop :=
  ∃ head, text = joinLines (head ++ es.flatMap fun e => "" :: e.lines)

variable {classes : ClassNames} {limit : Option Nat} {u : ClassUnit} {text : String}

theorem eq_map_of_mapM_emitMethod {ms : List Ir.Method} {es : List EmittedMethod}
    (h : ms.mapM (emitMethod classes limit) = .ok es) : es = ms.map (emitted classes) := by
  induction ms generalizing es with
  | nil =>
    cases h
    rfl
  | cons m ms ih =>
    rw [List.mapM_cons] at h
    obtain ⟨e, he, h⟩ := bind_eq_ok.mp h
    obtain ⟨es', hes, h⟩ := bind_eq_ok.mp h
    cases h
    obtain ⟨-, -, rfl⟩ := emitMethod_eq_ok.mp he
    rw [List.map_cons, ← ih hes]

/-- The assembly of a class shows its emitted methods. -/
theorem isAssembly_of_assemble (h : assemble limit u = .ok text) :
    IsAssembly text (u.methods.map (emitted (.ofUnit u))) := by
  unfold assemble at h
  obtain ⟨es, hes, h⟩ := bind_eq_ok.mp h
  cases h
  rw [← eq_map_of_mapM_emitMethod hes]
  exact ⟨_, rfl⟩

end Jvm

/-! ### Programs -/

/-- What is lowered of a program. -/
def CompileOptions.Lowers (options : CompileOptions) (t : SymbolTable) (root root' : Node) : Prop :=
  if options.optimize then ∃ stats, MiniJava.optimize t root = .ok (root', stats) else root' = root

section Code

variable {options : CompileOptions} {root : Node} {table : SymbolTable} {compiled : Compiled}

theorem codeOf_eq_ok {mistakes : List Diagnostic} :
    codeOf options table mistakes root = .ok compiled ↔ ∃ unit, lower table root = .ok unit ∧
      ∃ text, Jvm.assemble options.registerLimit unit = .ok text ∧
        compiled = ⟨unit.text, text, mistakes ++ divisionWarnings root⟩ := by
  simp only [codeOf, bind_eq_ok, mapError_eq_ok, pure, Except.pure, Except.ok.injEq]
  simp only [eq_comm]

/-- Code is generated if there is code for what is lowered. -/
theorem generate_eq_ok : generate options (root, table) = .ok compiled ↔
    ∃ root', options.Lowers table root root' ∧ codeOf options table
      ((analyze table root).map fun e => { e.toDiagnostic with severity := .warning }) root' =
        .ok compiled := by
  unfold generate CompileOptions.Lowers
  cases options.optimize with
  | false => exact ⟨fun h => ⟨root, rfl, h⟩, fun ⟨_, hroot', h⟩ => hroot' ▸ h⟩
  | true =>
    cases optimize table root with
    | error e => exact iff_of_false nofun fun ⟨_, ⟨_, h⟩, _⟩ => nomatch h
    | ok r =>
      constructor
      · exact fun h => ⟨r.1, ⟨r.2, rfl⟩, h⟩
      · rintro ⟨root', ⟨stats, ⟨⟩⟩, h⟩
        exact h

end Code

namespace Accepted

variable {source : String} {root : Node} {table : SymbolTable} {options : CompileOptions}

/-- What is lowered of an accepted program passes the checks, and its methods come by
simplifications from those at their places. -/
theorem sound_of_lowers (h : Accepted source root table) {root' : Node}
    (hroot' : options.Lowers table root root') : root'.Sound table ∧
      List.Forall₂ (Relation.ReflTransGen (Node.Reduces table)) root.methods root'.methods := by
  unfold CompileOptions.Lowers at hroot'
  split at hroot'
  · obtain ⟨stats, hoptimize⟩ := hroot'
    obtain ⟨root'', stats', hoptimize', hsound⟩ := h.sound.exists_optimize
    cases hoptimize.symm.trans hoptimize'
    exact hsound
  · rw [hroot']
    exact ⟨h.sound, List.forall₂_same.mpr fun _ _ => .refl⟩

/-- **Each method of the class is lowered from one that comes by simplifications from the method of the
source at its place.** -/
theorem forall₂_lowered (h : Accepted source root table) {root' : Node}
    (hroot' : options.Lowers table root root') {unit : Ir.ClassUnit}
    (hlower : lower table root' = .ok unit) :
    List.Forall₂ (fun n m => n ∈ root.methods ∧
        ∃ n', Relation.ReflTransGen (Node.Reduces table) n n' ∧
          ∃ s s', (lowerMethod (Scope.ofMethod table) n').run s = .ok (m, s'))
      root.methods unit.methods := by
  have hreduces := (List.forall₂_and_left _ _).mpr ⟨fun n hn => hn, (h.sound_of_lowers hroot').2⟩
  exact forall₂_trans (fun n n' m ⟨hn, hsteps⟩ ⟨s, s', _, hm⟩ => ⟨hn, n', hsteps, s, s', hm⟩)
    hreduces (forall₂_lowerMethod hlower)

/-- **An accepted program is compiled if what is lowered of it has assembly.** -/
theorem compile_eq_ok (h : Accepted source root table) {compiled : Compiled} :
    compile options source = .ok compiled ↔ ∃ root', options.Lowers table root root' ∧
      ∃ unit, lower table root' = .ok unit ∧
        ∃ text, Jvm.assemble options.registerLimit unit = .ok text ∧
          compiled = ⟨unit.text, text, divisionWarnings root'⟩ := by
  rw [h.compile_eq, generate_eq_ok, h.checked]
  exact exists_congr fun root' => and_congr_right fun _ => codeOf_eq_ok

/-- A program is compiled if all instructions of what is lowered have blocks and any number of
registers may be used. -/
theorem exists_compile_of_lowers (h : Accepted source root table) {root' : Node}
    (hroot' : options.Lowers table root root') (hlimit : options.registerLimit = none)
    {unit : Ir.ClassUnit} (hlower : lower table root' = .ok unit)
    (hblocks : (unit.methods.all fun m => m.code.all Ir.Instr.hasBlock) = true) :
    ∃ compiled, compile options source = .ok compiled ∧
      Jvm.IsAssembly compiled.assembly (unit.methods.map (Jvm.emitted (.ofUnit unit))) ∧
      compiled.warnings = divisionWarnings root' := by
  obtain ⟨text, htext⟩ : ∃ text, Jvm.assemble none unit = .ok text :=
    Jvm.exists_assemble_eq_ok.mpr fun m hm =>
      ⟨_, Jvm.emitMethod_eq_ok.mpr ⟨nofun, List.all_eq_true.mp hblocks m hm, rfl⟩⟩
  rw [← hlimit] at htext
  exact ⟨_, h.compile_eq_ok.mpr ⟨root', hroot', unit, hlower, text, htext, rfl⟩,
    Jvm.isAssembly_of_assemble htext, rfl⟩

/-- A program all of whose instructions have blocks is compiled, if it is not optimized and any
number of registers may be used. -/
theorem exists_compile_eq_ok (h : Accepted source root table) {unit : Ir.ClassUnit}
    (hlower : lower table root = .ok unit)
    (hblocks : (unit.methods.all fun m => m.code.all Ir.Instr.hasBlock) = true) :
    ∃ compiled, compile {} source = .ok compiled ∧
      Jvm.IsAssembly compiled.assembly (unit.methods.map (Jvm.emitted (.ofUnit unit))) := by
  have hroot : CompileOptions.Lowers {} table root root := rfl
  obtain ⟨compiled, hcompile, hassembly, -⟩ := h.exists_compile_of_lowers hroot rfl hlower hblocks
  exact ⟨compiled, hcompile, hassembly⟩

end Accepted

end MiniJava
