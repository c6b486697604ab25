import Mathlib.Data.List.Infix
import MiniJava.Proofs.Emission.Tracking
import MiniJava.Proofs.Semantics.ControlFlow

/-!
# The depth of the operand stack on paths

`StackDepth` follows the code from front to end, whatever jumps there are. What it computes is
compared here with the depth on the paths through the code (`DepthLeads`).

Both are given by the *level* of a place: the depth that the stack must have there for what follows.
It is read off the code from the end, as soon as the levels of labels are fixed. Code is layered if
each of its instructions passes on the level that its successors need (`Layered`).

* The depth on every path is the level of the place to which it leads (`Layered.level_of_leads`), so
  paths to one place agree and nothing is taken from an empty stack.
* The limit is the greatest level (`Layered.stackLimit_eq`).
-/

namespace MiniJava.Jvm

/-! ## Paths with the depth of the stack -/

/-- The label to which an instruction may jump. -/
def Instr.target? : Instr → Option String
  | goto target | ifTrue target | ifCompare _ target => some target
  | _ => none

/-- The instruction behind may be the next. -/
def Instr.falls : Instr → Bool
  | goto _ | ret | retValue _ => false
  | _ => true

/-- How instructions pass control on. -/
def controlFlow : ControlFlow Instr := ⟨Instr.label?, Instr.target?, Instr.falls⟩

/-- A step from one place in the code to the next, with the depth of the stack. An instruction that
takes more than there is has no step. -/
inductive DepthStep (code : List Instr) : List Instr × Nat → List Instr × Nat → Prop
  | step {i : Instr} {q q' : List Instr} {d : Nat} (hstep : controlFlow.Steps code (i :: q) q')
      (hpops : i.pops ≤ d) : DepthStep code (i :: q, d) (q', d - i.pops + i.pushes)

/-- A path leads from one place and depth to the other. -/
abbrev DepthLeads (code : List Instr) : List Instr × Nat → List Instr × Nat → Prop :=
  Relation.ReflTransGen (DepthStep code)

variable {i : Instr} {code p q rest : List Instr}

/-- There are the same paths behind other code. -/
theorem DepthLeads.behind {code' : List Instr} (h : code <:+ code') {p q : List Instr × Nat}
    (hpath : DepthLeads code p q) : DepthLeads code' p q := by
  refine Relation.ReflTransGen.mono ?_ p q hpath
  rintro p q ⟨hstep, hpops⟩
  refine .step ?_ hpops
  cases hstep with
  | fall hi => exact .fall hi
  | jump hi hj hrest => exact .jump hi hj (hrest.trans h)

/-! ## Levels -/

section Level

variable (h : String → Nat)

/-- The depth that the stack must have at a place, if it must be empty at the end. -/
def level : List Instr → Nat
  | [] => 0
  | i :: rest =>
    if i.falls then level rest - i.pushes + i.pops
    else (i.target?.map h).getD 0 + i.pops

/-- The greatest level in some code. -/
def peak : List Instr → Nat
  | [] => 0
  | i :: rest => max (level h (i :: rest)) (peak rest)

/-- The first label has level 0, if there is one. -/
def Calm : List Instr → Prop
  | [] => True
  | .label l :: _ => h l = 0
  | _ :: rest => Calm rest

/-- An instruction passes on the level that is needed behind it and at its target. Behind one that
does not go on the stack is empty again, or there is a label. -/
structure PassesOn (i : Instr) (rest : List Instr) : Prop where
  label : ∀ l, i.label? = some l → level h (i :: rest) = h l
  target : ∀ l, i.target? = some l → level h (i :: rest) - i.pops + i.pushes = h l
  falls : i.falls = true → i.pushes ≤ level h rest
  ends : i.falls = false → level h rest = 0 ∧ Calm h rest ∧
    (level h (i :: rest) = i.pops ∨ ∃ l back, rest = .label l :: back)

/-- Each instruction passes on the level that is needed. -/
def Layered : List Instr → Prop
  | [] => True
  | i :: rest => PassesOn h i rest ∧ Layered rest

variable {h}

theorem level_cons_of_falls (hi : i.falls = true) :
    level h (i :: rest) = level h rest - i.pushes + i.pops := by
  rw [level, if_pos hi]

/-- An instruction takes no more than the level. -/
theorem pops_le_level : i.pops ≤ level h (i :: rest) := by
  unfold level
  split <;> omega

theorem PassesOn.level_behind (hi : PassesOn h i rest) (hfalls : i.falls = true) :
    level h (i :: rest) - i.pops + i.pushes = level h rest := by
  have hpushes := hi.falls hfalls
  rw [level_cons_of_falls hfalls]
  omega

theorem Layered.of_suffix (hcode : Layered h code) (hq : q <:+ code) : Layered h q := by
  induction code with
  | nil => rwa [List.suffix_nil.mp hq]
  | cons i rest ih =>
    rcases List.suffix_cons_iff.mp hq with rfl | hq
    · exact hcode
    · exact ih hcode.2 hq

/-- **The depth on a path is the level of the place to which it leads.** -/
theorem Layered.level_of_leads (hcode : Layered h code) {d : Nat}
    (hpath : DepthLeads code (code, level h code) (q, d)) : q <:+ code ∧ d = level h q := by
  suffices hinv : ∀ p, DepthLeads code (code, level h code) p →
      p.1 <:+ code ∧ p.2 = level h p.1 from hinv (q, d) hpath
  intro p hp
  induction hp with
  | refl => exact ⟨List.suffix_refl code, rfl⟩
  | tail _ hstep ih =>
    obtain ⟨hstep, -⟩ := hstep
    obtain ⟨hsuffix, hd⟩ := ih
    obtain ⟨hi, -⟩ := hcode.of_suffix hsuffix
    dsimp only at hsuffix hd ⊢
    rw [hd]
    cases hstep with
    | fall hfalls => exact ⟨(List.suffix_cons _ _).trans hsuffix, hi.level_behind hfalls⟩
    | jump htarget hlabel hrest =>
      obtain ⟨hj, -⟩ := hcode.of_suffix hrest
      exact ⟨hrest, (hi.target _ htarget).trans (hj.label _ hlabel).symm⟩

/-! ### The greatest level -/

theorem level_le_peak (hq : q <:+ code) : level h q ≤ peak h code := by
  induction code with
  | nil => rw [List.suffix_nil.mp hq, peak, level]
  | cons i rest ih =>
    rcases List.suffix_cons_iff.mp hq with rfl | hq
    · exact Nat.le_max_left _ _
    · exact (ih hq).trans (Nat.le_max_right _ _)

theorem exists_level_eq_peak (code : List Instr) : ∃ q, q <:+ code ∧ level h q = peak h code := by
  induction code with
  | nil => exact ⟨[], List.suffix_refl _, rfl⟩
  | cons i rest ih =>
    by_cases hle : peak h rest ≤ level h (i :: rest)
    · exact ⟨i :: rest, List.suffix_refl _, (Nat.max_eq_left hle).symm⟩
    · obtain ⟨q, hq, hlevel⟩ := ih
      refine ⟨q, hq.trans (List.suffix_cons i rest), ?_⟩
      rw [peak, hlevel]
      omega

/-! ### Behind other code -/

theorem level_append (hrest : level h rest = 0) : level h (p ++ rest) = level h p := by
  induction p with
  | nil => exact hrest
  | cons i p ih => rw [List.cons_append, level, level, ih]

theorem peak_append (hrest : level h rest = 0) :
    peak h (p ++ rest) = max (peak h p) (peak h rest) := by
  induction p with
  | nil => simp [peak]
  | cons i p ih => rw [List.cons_append, peak, peak, ih, ← List.cons_append, level_append hrest,
      Nat.max_assoc]

theorem Calm.append (hp : Calm h p) (hrest : Calm h rest) : Calm h (p ++ rest) := by
  induction p with
  | nil => exact hrest
  | cons i p ih =>
    cases i with
    | label l => exact hp
    | _ => exact ih hp

theorem calm_cons (hi : i.label? = none) : Calm h (i :: rest) ↔ Calm h rest := by
  cases i with
  | label l => cases hi
  | _ => exact Iff.rfl

theorem PassesOn.append (hi : PassesOn h i p) (hlevel : level h rest = 0) (hcalm : Calm h rest) :
    PassesOn h i (p ++ rest) := by
  have hbehind : level h (p ++ rest) = level h p := level_append hlevel
  have hhere : level h (i :: (p ++ rest)) = level h (i :: p) := by
    rw [level, level, hbehind]
  constructor
  · rw [hhere]
    exact hi.label
  · rw [hhere]
    exact hi.target
  · rw [hbehind]
    exact hi.falls
  · intro hends
    obtain ⟨hzero, hfirst, hor⟩ := hi.ends hends
    rw [hhere, hbehind]
    refine ⟨hzero, hfirst.append hcalm, ?_⟩
    rcases hor with hor | ⟨l, back, rfl⟩
    · exact .inl hor
    · exact .inr ⟨l, back ++ rest, rfl⟩

theorem Layered.append (hp : Layered h p) (hrest : Layered h rest) (hlevel : level h rest = 0)
    (hcalm : Calm h rest) : Layered h (p ++ rest) := by
  induction p with
  | nil => exact hrest
  | cons i p ih => exact ⟨hp.1.append hlevel hcalm, ih hp.2⟩

/-! ## The limit -/

/-- The state in front of a place is what the levels say: the depth is the level, except in front of
a label to which nothing runs on. -/
structure StackDepth.Follows (s : StackDepth) (h : String → Nat) (q : List Instr) : Prop where
  noted : ∀ l d, s.noted? l = some d → d = h l
  depth : s.depth = level h q ∨ s.reachable = false ∧ ∃ l back, q = .label l :: back
  calm : s.reachable = false → Calm h q
  bound : level h q ≤ s.max

variable {s : StackDepth}

@[simp] theorem StackDepth.branch_depth (l : String) : (s.branch l).depth = s.depth := by
  unfold branch
  split <;> rfl

@[simp] theorem StackDepth.branch_max (l : String) : (s.branch l).max = s.max := by
  unfold branch
  split <;> rfl

@[simp] theorem StackDepth.branch_reachable (l : String) :
    (s.branch l).reachable = s.reachable := by
  unfold branch
  split <;> rfl

/-- A jump with the depth of its label notes nothing else. -/
theorem StackDepth.noted_branch {l : String} (hs : ∀ l d, s.noted? l = some d → d = h l)
    (hdepth : s.depth = h l) : ∀ l' d, (s.branch l).noted? l' = some d → d = h l' := by
  intro l' d hd
  unfold branch at hd
  split at hd
  · exact hs l' d hd
  · unfold noted? at hd
    rw [List.lookup_cons] at hd
    split at hd
    · rename_i heq
      cases hd
      rw [beq_iff_eq.mp heq, hdepth]
    · exact hs l' d hd

theorem StackDepth.Follows.depth_eq (hs : s.Follows h (i :: rest)) (hi : i.label? = none) :
    s.depth = level h (i :: rest) := by
  rcases hs.depth with hdepth | ⟨-, l, back, heq⟩
  · exact hdepth
  · cases heq
    cases hi

/-- Behind a label the next instruction runs on with the level of the label. -/
theorem follows_label {l : String} (hs : s.Follows h (.label l :: rest))
    (hi : PassesOn h (.label l) rest) :
    (s.label l).Follows h rest ∧ (s.label l).max = max s.max (level h rest) := by
  have hlevel : level h (.label l :: rest) = h l := hi.label l rfl
  have hbehind : level h (.label l :: rest) = level h rest := hi.level_behind rfl
  have hmax : s.max = max s.max (level h rest) := by
    have hbound := hs.bound
    omega
  unfold StackDepth.label
  by_cases hreachable : s.reachable = true
  · have hdepth : s.depth = level h (.label l :: rest) := by
      rcases hs.depth with hdepth | ⟨hfalse, -⟩
      · exact hdepth
      · simp [hfalse] at hreachable
    rw [if_pos hreachable]
    refine ⟨⟨StackDepth.noted_branch hs.noted (hdepth.trans hlevel), .inl ?_, ?_, ?_⟩, ?_⟩
    · rw [StackDepth.branch_depth, hdepth, hbehind]
    · simp [hreachable]
    · rw [StackDepth.branch_max, ← hbehind]
      exact hs.bound
    · rw [StackDepth.branch_max]
      exact hmax
  · have hzero : h l = 0 := hs.calm (by simpa using hreachable)
    have hdepth : (s.noted? l).getD 0 = h l := by
      cases hnoted : s.noted? l with
      | none => simp [hzero]
      | some d => exact hs.noted l d hnoted
    rw [if_neg hreachable]
    refine ⟨⟨hs.noted, .inl ?_, by simp, ?_⟩, hmax⟩
    · rw [hdepth, ← hlevel, hbehind]
    · rw [← hbehind]
      exact hs.bound

theorem StackDepth.step_of_falls (hfalls : i.falls = true) (hlabel : i.label? = none) :
    s.step i = match i.target? with
      | some l => (s.apply i.pops i.pushes).branch l
      | none => s.apply i.pops i.pushes := by
  cases i with
  | goto | ret | retValue => cases hfalls
  | label => cases hlabel
  | _ => rfl

/-- Values are taken and put, and the instruction behind is the next. -/
theorem follows_falls (hs : s.Follows h (i :: rest)) (hi : PassesOn h i rest)
    (hfalls : i.falls = true) (hlabel : i.label? = none) :
    (s.step i).Follows h rest ∧ (s.step i).max = max s.max (level h rest) := by
  have hcalm (hnot : s.reachable = false) : Calm h rest := (calm_cons hlabel).mp (hs.calm hnot)
  have hdepth : (s.apply i.pops i.pushes).depth = level h rest := by
    rw [← hi.level_behind hfalls, ← hs.depth_eq hlabel]
    rfl
  have hmax : (s.apply i.pops i.pushes).max = max s.max (level h rest) := by
    rw [← hdepth]
    rfl
  have hbound : level h rest ≤ (s.apply i.pops i.pushes).max := by omega
  rw [StackDepth.step_of_falls hfalls hlabel]
  cases htarget : i.target? with
  | none => exact ⟨⟨hs.noted, .inl hdepth, hcalm, hbound⟩, hmax⟩
  | some l =>
    have hl : (s.apply i.pops i.pushes).depth = h l := by
      rw [hdepth, ← hi.level_behind hfalls, hi.target l htarget]
    refine ⟨⟨StackDepth.noted_branch hs.noted hl, .inl ?_, fun hnot => hcalm ?_, ?_⟩, ?_⟩
    · rw [StackDepth.branch_depth, hdepth]
    · simpa [StackDepth.apply] using hnot
    · rwa [StackDepth.branch_max]
    · rw [StackDepth.branch_max, hmax]

/-- Nothing runs on behind the instruction. -/
theorem follows_ends (hs : s.Follows h (i :: rest)) (hi : PassesOn h i rest)
    (hends : i.falls = false) :
    (s.step i).Follows h rest ∧ (s.step i).max = max s.max (level h rest) := by
  obtain ⟨hzero, hcalm, hor⟩ := hi.ends hends
  have hlabel : i.label? = none := by
    cases i with
    | label => cases hends
    | _ => rfl
  have hdepth := hs.depth_eq hlabel
  have hbound := hs.bound
  have hafter : (s.step i).depth = s.depth - i.pops := by
    cases i with
    | goto target => exact StackDepth.branch_depth target
    | ret | retValue => rfl
    | _ => cases hends
  have hmax : (s.step i).max = s.max := by
    cases i with
    | goto target => exact StackDepth.branch_max target
    | ret | retValue =>
      refine Nat.max_eq_left ?_
      simp only [hdepth]
      omega
    | _ => cases hends
  have hreachable : (s.step i).reachable = false := by
    cases i with
    | goto | ret | retValue => rfl
    | _ => cases hends
  refine ⟨⟨?_, ?_, fun _ => hcalm, ?_⟩, ?_⟩
  · cases i with
    | goto target =>
      refine StackDepth.noted_branch hs.noted ?_
      rw [hdepth, ← hi.target target rfl]
      rfl
    | ret | retValue => exact hs.noted
    | _ => cases hends
  · rcases hor with hpops | hlabel
    · left
      rw [hafter, hdepth, hpops, hzero, Nat.sub_self]
    · exact .inr ⟨hreachable, hlabel⟩
  · simp [hzero]
  · simp [hmax, hzero]

theorem follows_step (hs : s.Follows h (i :: rest)) (hi : PassesOn h i rest) :
    (s.step i).Follows h rest ∧ (s.step i).max = max s.max (level h rest) := by
  by_cases hfalls : i.falls = true
  · cases hlabel : i.label? with
    | none => exact follows_falls hs hi hfalls hlabel
    | some l =>
      cases i with
      | label l => exact follows_label hs hi
      | _ => cases hlabel
  · exact follows_ends hs hi (by simpa using hfalls)

theorem max_foldl_step (hs : s.Follows h code) (hcode : Layered h code) :
    (code.foldl StackDepth.step s).max = max s.max (peak h code) := by
  induction code generalizing s with
  | nil => simp [peak]
  | cons i rest ih =>
    obtain ⟨hs', hmax⟩ := follows_step hs hcode.1
    have hpeak : level h rest ≤ peak h rest := level_le_peak (List.suffix_refl rest)
    have hbound := hs.bound
    rw [List.foldl_cons, ih hs' hcode.2, hmax, peak]
    omega

/-- **The limit is the greatest level**, if the stack is empty at the front. -/
theorem Layered.stackLimit_eq (hcode : Layered h code) (hlevel : level h code = 0) :
    stackLimit code = peak h code := by
  have hs : StackDepth.Follows {} h code :=
    ⟨by simp [StackDepth.noted?], .inl hlevel.symm, by simp, Nat.le_of_eq hlevel⟩
  rw [stackLimit, max_foldl_step hs hcode]
  exact Nat.zero_max _

end Level

end MiniJava.Jvm
