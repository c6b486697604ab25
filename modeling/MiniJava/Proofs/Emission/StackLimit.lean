import Mathlib.Order.Bounds.Basic
import MiniJava.Jvm.Text
import MiniJava.Proofs.Emission.Blocks
import MiniJava.Proofs.Emission.Depth
import MiniJava.Proofs.Accepted
import MiniJava.Proofs.Emission.Encoding
import MiniJava.Proofs.Lowering.Regular

/-!
# The declared depth of the operand stack

The code of a method consists of blocks, one for each instruction of three-address code. Only the
labels behind comparisons have a level: the truth value that both cases leave there (`joinLevel`).
With these levels each block runs from an empty stack to an empty stack (`Frame.stands_block`), so
the code of a method is layered, and the depth that the method declares is the greatest that some
block reaches (`balanced_of_emitMethod`).
-/

namespace MiniJava.Jvm

open Ir (Operand Rhs Call Var IsLabel)

/-! ## Code that runs to its end -/

/-- The depth at a label: a comparison leaves a truth value at the label behind it. -/
def joinLevel (l : String) : Nat := if "cmp_end_".toList <+: l.toList then 1 else 0

theorem joinLevel_end (n : Nat) : joinLevel ("cmp_end_" ++ toString n) = 1 := by
  simp [joinLevel]

theorem joinLevel_true (n : Nat) : joinLevel ("cmp_true_" ++ toString n) = 0 := by
  simp [joinLevel]

theorem joinLevel_of_isLabel {l : String} (h : IsLabel l) : joinLevel l = 0 := by
  obtain ⟨k, p, hp, n, rfl⟩ := h
  cases k <;> simp [Ir.LabelKind.stems] at hp <;> rcases hp with rfl | rfl | rfl <;>
    simp [joinLevel]

/-- From a stack of this depth the code runs as the levels say, and to each of its instructions. -/
structure RunsFrom (d : Nat) (code : List Instr) : Prop where
  start : level joinLevel code = d
  layered : Layered joinLevel code
  reached : ∀ q, q <:+ code → q ≠ [] → DepthLeads code (code, d) (q, level joinLevel q)

variable {i : Instr} {p q rest : List Instr} {a b c k : Nat}

theorem runsFrom_nil : RunsFrom 0 [] :=
  ⟨rfl, trivial, fun _ hq hne => absurd (List.suffix_nil.mp hq) hne⟩

/-- An instruction that takes and puts what is between two depths passes on the second. -/
theorem passesOn_of_falls (k : Nat) (hrest : level joinLevel rest = b) (ha : k + i.pops = a)
    (hb : k + i.pushes = b) (hfalls : i.falls = true)
    (hlabel : ∀ l, i.label? = some l → joinLevel l = a)
    (htarget : ∀ l, i.target? = some l → joinLevel l = b) :
    level joinLevel (i :: rest) = a ∧ PassesOn joinLevel i rest := by
  have hstart : level joinLevel (i :: rest) = a := by
    rw [level_cons_of_falls hfalls, hrest]
    omega
  refine ⟨hstart, ?_, ?_, ?_, ?_⟩
  · intro l hl
    rw [hstart, hlabel l hl]
  · intro l hl
    rw [hstart, htarget l hl]
    omega
  · omega
  · simp [hfalls]

/-- An instruction in front that runs on. -/
theorem RunsFrom.cons (k : Nat) (hrest : RunsFrom b rest) (ha : k + i.pops = a)
    (hb : k + i.pushes = b) (hfalls : i.falls = true)
    (hlabel : ∀ l, i.label? = some l → joinLevel l = a)
    (htarget : ∀ l, i.target? = some l → joinLevel l = b) : RunsFrom a (i :: rest) := by
  obtain ⟨hstart, hi⟩ := passesOn_of_falls k hrest.start ha hb hfalls hlabel htarget
  refine ⟨hstart, ⟨hi, hrest.layered⟩, fun q hq hne => ?_⟩
  rcases List.suffix_cons_iff.mp hq with rfl | hq
  · rw [hstart]
  · have hstep : DepthStep (i :: rest) (i :: rest, a) (rest, b) := by
      have hdepth : a - i.pops + i.pushes = b := by omega
      exact hdepth ▸ .step (.fall hfalls) (by omega)
    exact .head hstep ((hrest.reached q hq hne).behind (List.suffix_cons i rest))

/-! ## Parts of a block -/

/-- In front of code that runs from the second depth, the part runs from the first. -/
def Raises (a b : Nat) (p : List Instr) : Prop :=
  ∀ rest, RunsFrom b rest → Calm joinLevel rest →
    RunsFrom a (p ++ rest) ∧ Calm joinLevel (p ++ rest)

theorem Raises.nil : Raises a a [] := fun _ hrest hcalm => ⟨hrest, hcalm⟩

theorem Raises.append (hp : Raises a b p) (hq : Raises b c q) : Raises a c (p ++ q) := by
  intro rest hrest hcalm
  obtain ⟨hrest, hcalm⟩ := hq rest hrest hcalm
  rw [List.append_assoc]
  exact hp _ hrest hcalm

/-- An instruction that runs on and is no label. -/
theorem raises_single (k : Nat) (ha : k + i.pops = a) (hb : k + i.pushes = b)
    (hfalls : i.falls = true) (hlabel : i.label? = none)
    (htarget : ∀ l, i.target? = some l → joinLevel l = b) : Raises a b [i] := by
  intro rest hrest hcalm
  exact ⟨hrest.cons k ha hb hfalls (by simp [hlabel]) htarget, (calm_cons hlabel).mpr hcalm⟩

/-- An instruction that only runs on. -/
theorem raises_straight (k : Nat) (ha : k + i.pops = a) (hb : k + i.pushes = b)
    (hfalls : i.falls = true) (hlabel : i.label? = none) (htarget : i.target? = none) :
    Raises a b [i] :=
  raises_single k ha hb hfalls hlabel fun _ h => absurd (htarget.symm.trans h) (by simp)

/-- Both cases of a comparison leave a truth value. -/
theorem RunsFrom.cases (hrest : RunsFrom 1 rest) (c : Comparison) {thenLabel endLabel : String}
    (hthen : joinLevel thenLabel = 0) (hend : joinLevel endLabel = 1) :
    RunsFrom 2 (.ifCompare c thenLabel :: .const 0 :: .goto endLabel :: .label thenLabel ::
      .const 1 :: .label endLabel :: rest) := by
  have hjoin : RunsFrom 1 (.label endLabel :: rest) :=
    hrest.cons 1 rfl rfl rfl (by rintro l ⟨⟩; exact hend) nofun
  have hput : RunsFrom 0 (.const 1 :: .label endLabel :: rest) :=
    hjoin.cons 0 rfl rfl rfl nofun nofun
  generalize Instr.const 1 :: .label endLabel :: rest = back at hput
  have hsecond : RunsFrom 0 (.label thenLabel :: back) :=
    hput.cons 0 rfl rfl rfl (by rintro l ⟨⟩; exact hthen) nofun
  let first := .const 0 :: .goto endLabel :: .label thenLabel :: back
  let code := .ifCompare c thenLabel :: first
  -- The second case is in front of the label, so the first has to jump to come behind it.
  have hjump : level joinLevel (.goto endLabel :: .label thenLabel :: back) = 1 := hend
  have hover : PassesOn joinLevel (.goto endLabel) (.label thenLabel :: back) :=
    ⟨nofun, by rintro l ⟨⟩; exact hjump.trans hend.symm, nofun,
      fun _ => ⟨hsecond.start, hthen, .inr ⟨_, _, rfl⟩⟩⟩
  obtain ⟨hfirst, hconst⟩ := passesOn_of_falls (i := .const 0) (a := 0) 0 hjump rfl rfl rfl
    nofun nofun
  obtain ⟨hstart, htest⟩ := passesOn_of_falls (i := .ifCompare c thenLabel) (a := 2) 0 hfirst rfl
    rfl rfl nofun (by rintro l ⟨⟩; exact hthen)
  refine ⟨hstart, ⟨htest, hconst, hover, hsecond.layered⟩, fun q hq hne => ?_⟩
  have htoFirst : DepthStep code (code, 2) (first, 0) := .step (.fall rfl) (Nat.le_refl 2)
  have htoJump : DepthStep code (first, 0) (.goto endLabel :: .label thenLabel :: back, 1) :=
    .step (.fall rfl) (Nat.le_refl 0)
  have hsuffix : .label thenLabel :: back <:+ code :=
    ⟨[.ifCompare c thenLabel, .const 0, .goto endLabel], rfl⟩
  have htoSecond : DepthStep code (code, 2) (.label thenLabel :: back, 0) :=
    .step (.jump rfl rfl hsuffix) (Nat.le_refl 2)
  rcases List.suffix_cons_iff.mp hq with rfl | hq
  · rw [hstart]
  rcases List.suffix_cons_iff.mp hq with rfl | hq
  · rw [hfirst]
    exact .single htoFirst
  rcases List.suffix_cons_iff.mp hq with rfl | hq
  · rw [hjump]
    exact .tail (.single htoFirst) htoJump
  · exact .head htoSecond ((hsecond.reached q hq hne).behind hsuffix)

theorem raises_comparing (c : Comparison) (n : Nat) : Raises 2 1 (comparing c n) :=
  fun _ hrest _ => ⟨hrest.cases c (joinLevel_true n) (joinLevel_end n), joinLevel_true n⟩

/-! ## Blocks -/

/-- The block runs from an empty stack to an empty stack. -/
def Stands (block : List Instr) : Prop := RunsFrom 0 block ∧ Calm joinLevel block

theorem Raises.stands (hp : Raises 0 0 p) : Stands p := by
  obtain ⟨hruns, hcalm⟩ := hp [] runsFrom_nil trivial
  rw [List.append_nil] at hruns hcalm
  exact ⟨hruns, hcalm⟩

/-- A part in front of an instruction that does not run on. -/
theorem Raises.stands_of_ends (hp : Raises 0 i.pops p) (hends : i.falls = false)
    (htarget : ∀ l, i.target? = some l → joinLevel l = 0) (hpushes : i.pushes = 0) :
    Stands (p ++ [i]) := by
  have hlabel : i.label? = none := by
    cases i with
    | label => cases hends
    | _ => rfl
  have hstart : level joinLevel [i] = i.pops := by
    unfold level
    rw [if_neg (by simp [hends])]
    cases ht : i.target? with
    | none => simp
    | some l => simp [htarget l ht]
  refine hp [i] ⟨hstart, ⟨⟨by simp [hlabel], ?_, by simp [hends], ?_⟩, trivial⟩, ?_⟩
    ((calm_cons hlabel).mpr trivial)
  · intro l hl
    rw [hstart, htarget l hl, hpushes]
    omega
  · exact fun _ => ⟨rfl, trivial, .inl hstart⟩
  · intro q hq hne
    rcases List.suffix_cons_iff.mp hq with rfl | hq
    · rw [hstart]
    · exact absurd (List.suffix_nil.mp hq) hne

/-- A label that is no join. -/
theorem stands_label {l : String} (hl : joinLevel l = 0) : Stands [.label l] :=
  ⟨runsFrom_nil.cons 0 rfl rfl rfl (by rintro l ⟨⟩; exact hl) nofun, hl⟩

/-! ### The blocks of a method -/

namespace Frame

variable (fr : Frame)

theorem raises_loading (o : Operand) : Raises k (k + 1) [fr.loading o] := by
  cases o <;> exact raises_straight k rfl rfl rfl rfl rfl

theorem raises_map_loading (os : List Operand) : Raises k (k + os.length) (os.map fr.loading) := by
  induction os generalizing k with
  | nil => exact .nil
  | cons o os ih =>
    rw [List.length_cons, Nat.add_comm os.length, ← Nat.add_assoc]
    exact (fr.raises_loading o).append ih

/-- A call takes its operands and leaves its result, if it has one. -/
theorem raises_invoking (c : Call) :
    Raises c.operands.length (if c.returnType = .void then 0 else 1) [fr.invoking c] := by
  refine raises_straight 0 ?_ ?_ rfl rfl rfl
  · rw [fr.pops_invoking, Nat.zero_add]
  · rw [fr.pushes_invoking, Nat.zero_add]

/-- A value is left in place of the operands. -/
theorem raises_computing (r : Rhs) (hr : ∀ c, r = .call c → c.returnType ≠ .void) (n : Nat) :
    Raises r.operands.length 1 (fr.computing n r) := by
  cases r with
  | single value => exact .nil
  | binary op left right =>
    cases op with
    | add | sub | mul | div => exact raises_straight 0 rfl rfl rfl rfl rfl
    | _ => exact raises_comparing _ n
  | not operand =>
    have hxor : Raises 2 1 [.xor] := raises_straight 0 rfl rfl rfl rfl rfl
    exact (raises_straight (i := .const 1) 1 rfl rfl rfl rfl rfl).append hxor
  | call c =>
    have hcall := fr.raises_invoking c
    rwa [if_neg (hr c rfl)] at hcall
  | _ => exact raises_straight 0 rfl rfl rfl rfl rfl

/-- **The block of each instruction runs from an empty stack to an empty stack.** -/
theorem stands_block {i : Ir.Instr} (hi : i.Tidy) (n : Nat) : Stands (fr.block n i) := by
  have hload : Raises 0 i.operands.length (i.operands.map fr.loading) := by
    have h := fr.raises_map_loading (k := 0) i.operands
    rwa [Nat.zero_add] at h
  cases i with
  | assign dest value =>
    have hvalue (c : Call) (hc : value = .call c) : c.returnType ≠ .void := by
      subst hc
      exact hi
    have hcompute := fr.raises_computing value hvalue n
    have hstore : Raises 1 0 [fr.storing dest] := raises_straight 0 rfl rfl rfl rfl rfl
    exact (hload.append (hcompute.append hstore)).stands
  | arrayStore array index value | putField object field value =>
    refine Raises.stands (hload.append ?_)
    exact raises_straight 0 rfl rfl rfl rfl rfl
  | call c =>
    have hinvoke := fr.raises_invoking c
    rw [block, finishing]
    by_cases hvoid : c.returnType = .void
    · rw [if_pos hvoid] at hinvoke ⊢
      exact (hload.append hinvoke).stands
    · rw [if_neg hvoid] at hinvoke ⊢
      have hpop : Raises 1 0 [.pop] := raises_straight 0 rfl rfl rfl rfl rfl
      exact (hload.append (hinvoke.append hpop)).stands
  | goto target =>
    refine hload.stands_of_ends (i := .goto target) rfl ?_ rfl
    rintro l ⟨⟩
    exact joinLevel_of_isLabel hi
  | branch condition target =>
    refine Raises.stands (hload.append ?_)
    refine raises_single 0 rfl rfl rfl rfl ?_
    rintro l ⟨⟩
    exact joinLevel_of_isLabel hi
  | ret value =>
    cases value with
    | none => exact hload.stands_of_ends (i := .ret) rfl (by rintro l ⟨⟩) rfl
    | some value => exact hload.stands_of_ends (i := .retValue _) rfl (by rintro l ⟨⟩) rfl
  | label name => exact stands_label (joinLevel_of_isLabel hi)

theorem stands_of_mem_blocks {is : Ir.Code} (his : ∀ i ∈ is, i.Tidy) {n : Nat} {b : List Instr}
    (hb : b ∈ fr.blocks n is) : Stands b := by
  induction is generalizing n with
  | nil => cases hb
  | cons i is ih =>
    obtain ⟨hi, his⟩ := List.forall_mem_cons.mp his
    rcases List.mem_cons.mp hb with rfl | hb
    · exact fr.stands_block hi n
    · exact ih his hb

end Frame

/-! ## Methods -/

variable {blocks : List (List Instr)}

/-- Blocks one behind the other run from an empty stack to an empty stack. -/
theorem layered_flatten (h : ∀ b ∈ blocks, Stands b) : level joinLevel blocks.flatten = 0 ∧
    Layered joinLevel blocks.flatten ∧ Calm joinLevel blocks.flatten := by
  induction blocks with
  | nil => exact ⟨rfl, trivial, trivial⟩
  | cons b bs ih =>
    obtain ⟨⟨hb, hcalm⟩, hbs⟩ := List.forall_mem_cons.mp h
    obtain ⟨hzero, hlayered, hcalms⟩ := ih hbs
    rw [List.flatten_cons]
    exact ⟨(level_append hzero).trans hb.start, hb.layered.append hlayered hzero hcalms,
      hcalm.append hcalms⟩

/-- The greatest level is that of some block. -/
theorem peak_flatten (h : ∀ b ∈ blocks, Stands b) :
    (∀ b ∈ blocks, peak joinLevel b ≤ peak joinLevel blocks.flatten) ∧
      (peak joinLevel blocks.flatten = 0 ∨
        ∃ b ∈ blocks, peak joinLevel b = peak joinLevel blocks.flatten) := by
  induction blocks with
  | nil => exact ⟨nofun, .inl rfl⟩
  | cons b bs ih =>
    obtain ⟨-, hbs⟩ := List.forall_mem_cons.mp h
    obtain ⟨hzero, -, -⟩ := layered_flatten hbs
    obtain ⟨hle, hor⟩ := ih hbs
    rw [List.flatten_cons, peak_append hzero]
    refine ⟨fun c hc => ?_, ?_⟩
    · rcases List.mem_cons.mp hc with rfl | hc
      · exact Nat.le_max_left _ _
      · exact (hle c hc).trans (Nat.le_max_right _ _)
    · rcases Nat.le_total (peak joinLevel bs.flatten) (peak joinLevel b) with hb | hb
      · rw [Nat.max_eq_left hb]
        exact .inr ⟨b, List.mem_cons_self, rfl⟩
      · rw [Nat.max_eq_right hb]
        refine hor.imp id ?_
        rintro ⟨c, hc, hpeak⟩
        exact ⟨c, List.mem_cons_of_mem b hc, hpeak⟩

/-- The blocks are balanced, and the stack gets as deep as the limit. -/
structure Balanced (blocks : List (List Instr)) (limit : Nat) : Prop where
  /-- Nothing is taken that is not on the stack. -/
  enough : ∀ i q d, DepthLeads blocks.flatten (blocks.flatten, 0) (i :: q, d) → i.pops ≤ d
  /-- Paths to one place agree on the depth. -/
  agree : ∀ q d d', DepthLeads blocks.flatten (blocks.flatten, 0) (q, d) →
    DepthLeads blocks.flatten (blocks.flatten, 0) (q, d') → d = d'
  /-- Between two blocks, and in front of them and behind them, the stack is empty. -/
  empty : ∀ front back, blocks = front ++ back → ∀ d,
    DepthLeads blocks.flatten (blocks.flatten, 0) (back.flatten, d) → d = 0
  /-- The limit is the greatest depth in a single block, or 0 where there is none. -/
  limit : IsGreatest (insert 0 {d | ∃ b ∈ blocks, ∃ q, DepthLeads b (b, 0) (q, d)}) limit

/-- Blocks that run from an empty stack to an empty stack are balanced. -/
theorem balanced_of_stands (h : ∀ b ∈ blocks, Stands b) :
    Balanced blocks (stackLimit blocks.flatten) := by
  obtain ⟨hzero, hlayered, -⟩ := layered_flatten h
  have hlevel {q d} (hpath : DepthLeads blocks.flatten (blocks.flatten, 0) (q, d)) :
      d = level joinLevel q :=
    (hlayered.level_of_leads (hzero.symm ▸ hpath)).2
  refine ⟨fun i q d hpath => ?_, fun q d d' hpath hpath' => ?_, ?_, ?_, ?_⟩
  · rw [hlevel hpath]
    exact pops_le_level
  · rw [hlevel hpath, hlevel hpath']
  · rintro front back rfl d hpath
    rw [hlevel hpath]
    exact (layered_flatten fun b hb => h b (List.mem_append_right front hb)).1
  · rw [hlayered.stackLimit_eq hzero]
    rcases (peak_flatten h).2 with hnone | ⟨b, hb, hpeak⟩
    · exact .inl hnone
    · obtain ⟨q, hq, hlevel⟩ := exists_level_eq_peak (h := joinLevel) b
      rw [← hpeak, ← hlevel]
      by_cases hne : q = []
      · exact .inl (by simp [hne, level])
      · exact .inr ⟨b, hb, q, (h b hb).1.reached q hq hne⟩
  · rw [hlayered.stackLimit_eq hzero]
    rintro d (rfl | ⟨b, hb, q, hpath⟩)
    · exact Nat.zero_le _
    · obtain ⟨hruns, -⟩ := h b hb
      obtain ⟨hq, rfl⟩ := hruns.layered.level_of_leads (hruns.start.symm ▸ hpath)
      exact (level_le_peak hq).trans ((peak_flatten h).1 b hb)

/-- **The declared depth is right.** The blocks of an emitted method are balanced, whatever tree it
was lowered from, and the method declares the greatest depth that a block reaches. -/
theorem balanced_of_emitMethod {table : SymbolTable} {root : Node} {unit : Ir.ClassUnit}
    {m : Ir.Method} {classes : ClassNames} {limit : Option Nat} {e : EmittedMethod}
    (hlower : lower table root = .ok unit) (hm : m ∈ unit.methods)
    (hemit : emitMethod classes limit m = .ok e) :
    ∃ blocks, (m.code.mapM (Frame.ofMethod classes m).instr).run' {} = .ok blocks ∧
      e.code = blocks.flatten ∧ Balanced blocks e.stackLimit := by
  obtain ⟨-, hall, rfl⟩ := emitMethod_eq_ok.mp hemit
  obtain ⟨n, hmakes⟩ := code_makes_ofMethod classes m
  refine ⟨(Frame.ofMethod classes m).blocks 0 m.code, ?_, rfl, ?_⟩
  · rw [StateT.run'_eq, hmakes.run hall]
    rfl
  · have htidy := (regular_of_lower hlower hm).tidy
    exact balanced_of_stands fun b hb => Frame.stands_of_mem_blocks _ htidy hb

/-- Comparisons in a condition and in an argument. -/
theorem balanced_of_emitMethod_comparisons : ∃ table root unit m e,
    lower table root = .ok unit ∧ m ∈ unit.methods ∧
      emitMethod (.ofUnit unit) none m = .ok e ∧
      ∃ blocks, (m.code.mapM (Frame.ofMethod (.ofUnit unit) m).instr).run' {} = .ok blocks ∧
        e.code = blocks.flatten ∧ Balanced blocks e.stackLimit := by
  obtain ⟨root, table, -, hp⟩ := Accepted.exists_of_any
    "class A{int f(int a,boolean b){while(a<9)a=this.f(a,1<a);return a;}}"
    (fun root table => match lower table root with
      | .ok unit => unit.methods.any fun m => m.code.all Ir.Instr.hasBlock
      | .error _ => false)
    (by decide +kernel)
  split at hp
  · rename_i unit hlower
    obtain ⟨m, hm, hcode⟩ := List.any_eq_true.mp hp
    have hemit : emitMethod (.ofUnit unit) none m = .ok (emitted (.ofUnit unit) m) :=
      emitMethod_eq_ok.mpr ⟨nofun, hcode, rfl⟩
    exact ⟨table, root, unit, m, _, hlower, hm, hemit, balanced_of_emitMethod hlower hm hemit⟩
  · cases hp

end MiniJava.Jvm
