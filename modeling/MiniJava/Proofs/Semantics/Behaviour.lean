import Mathlib.Logic.Basic

/-!
# What a run shows

The meaning of a method is given three times, for its syntax tree, for its three-address code and
for its instructions. What the three have in common is here.

* A method does not run alone: calls, allocations, arrays and fields are *effects*, and a `World`
  answers them. An answer may depend on all effects so far, so a world can be anything that the
  method cannot see into. It cannot reach the variables of the method.
* An `Act` has effects and then either has a value or ends the run, with an `Ending`.
* A *run* is followed for some number of steps: an `Observation` after `n` steps is the effects so
  far, and the outcome if the run has ended. `SameBehaviour` compares two runs by what they show,
  not by the number of their steps: they end with the same endings after the same effects, or both
  go on forever with the same effects.
* A machine is a step function; `Machine.run` iterates it, and `Machine.Leads` says what a state
  comes to.

Effects are listed with the latest in front.
-/

namespace MiniJava

variable {ε α β γ σ : Type}

/-! ## Endings -/

/-- An exception. -/
inductive Exn where
  | divisionByZero
  /-- Any exception that an effect raises. -/
  | raised (id : Nat)
deriving DecidableEq, Repr

/-- How a run ends. -/
inductive Ending (α : Type) where
  | returned (value : Option α)
  | thrown (exception : Exn)
  /-- An effect is never answered. -/
  | hung
  /-- The program makes no sense: a value of the wrong sort, or none where one is needed. -/
  | stuck
deriving DecidableEq, Repr

/-- The outcome with another notion of values. -/
def Ending.map (f : α → β) : Ending α → Ending β
  | returned value => returned (value.map f)
  | thrown e => thrown e
  | hung => hung
  | stuck => stuck

/-- The answer to an effect. -/
inductive Reply (α : Type) where
  | returned (value : Option α)
  | thrown (exception : Exn)
  | hung
deriving DecidableEq, Repr

/-- The answer with another notion of values. -/
def Reply.map (f : α → β) : Reply α → Reply β
  | returned value => .returned (value.map f)
  | thrown e => .thrown e
  | hung => .hung

/-- What lies outside a method: the object whose method runs, and the answers to effects. -/
structure World (ε α : Type) where
  this : α
  /-- The answer to an effect behind the earlier ones. -/
  reply : List ε → ε → Reply α

/-- What lies outside, with another notion of values. -/
def World.map (f : α → β) (w : World ε α) : World ε β := ⟨f w.this, fun h e => (w.reply h e).map f⟩

/-! ## Acts -/

/-- Effects, and then a value or the end of the run. -/
structure Act (ε α β : Type) where
  run : List ε → Except (Ending α) β × List ε

namespace Act

/-- No effect. -/
protected def pure (b : β) : Act ε α β := ⟨fun h => (.ok b, h)⟩

/-- One act and then the next. -/
protected def bind (x : Act ε α β) (f : β → Act ε α γ) : Act ε α γ :=
  ⟨fun h =>
    match x.run h with
    | (.ok b, h') => (f b).run h'
    | (.error o, h') => (.error o, h')⟩

instance : Monad (Act ε α) where
  pure := Act.pure
  bind := Act.bind

/-- End the run. -/
def stop (o : Ending α) : Act ε α β := ⟨fun h => (.error o, h)⟩

/-- The value of an operation that may end the run. -/
def ofExcept : Except (Ending α) β → Act ε α β
  | .ok b => pure b
  | .error o => stop o

/-- The value where one is needed. -/
def need (x : Act ε α (Option β)) : Act ε α β := do
  match ← x with
  | some b => return b
  | none => stop .stuck

@[simp] theorem run_pure (b : β) (h : List ε) : (pure b : Act ε α β).run h = (.ok b, h) := rfl

@[simp] theorem run_stop (o : Ending α) (h : List ε) :
    (stop o : Act ε α β).run h = (.error o, h) := rfl

theorem run_bind (x : Act ε α β) (f : β → Act ε α γ) (h : List ε) :
    (x >>= f).run h = match x.run h with
      | (.ok b, h') => (f b).run h'
      | (.error o, h') => (.error o, h') := rfl

theorem run_bind_of_ok {x : Act ε α β} {h h' : List ε} {b : β} (hx : x.run h = (.ok b, h'))
    (f : β → Act ε α γ) : (x >>= f).run h = (f b).run h' := by
  rw [run_bind, hx]

theorem run_bind_of_error {x : Act ε α β} {h h' : List ε} {o : Ending α}
    (hx : x.run h = (.error o, h')) (f : β → Act ε α γ) : (x >>= f).run h = (.error o, h') := by
  rw [run_bind, hx]

theorem bind_pure (x : Act ε α β) : x.bind Act.pure = x := by
  obtain ⟨x⟩ := x
  simp only [Act.bind, Act.pure, mk.injEq]
  funext h
  rcases x h with ⟨_ | _, _⟩ <;> rfl

theorem bind_assoc {δ : Type} (x : Act ε α β) (f : β → Act ε α γ) (g : γ → Act ε α δ) :
    (x.bind f).bind g = x.bind fun b => (f b).bind g := by
  simp only [Act.bind, mk.injEq]
  funext h
  rcases x.run h with ⟨_ | _, _⟩ <;> rfl

instance : LawfulMonad (Act ε α) := .mk' _ bind_pure (fun _ _ => rfl) bind_assoc

theorem need_bind (x : Act ε α β) (f : β → Act ε α (Option γ)) :
    (x >>= f).need = x >>= fun b => (f b).need := by
  simp [need]

@[simp] theorem need_return_some (x : Act ε α β) : (do return some (← x)).need = x := by
  simp [need]

@[simp] theorem need_pure_some (b : β) : (pure (some b) : Act ε α (Option β)).need = pure b := by
  simp [need]

/-- The act with another notion of the values in endings. -/
def mapEnding {δ : Type} (f : α → δ) (x : Act ε α β) : Act ε δ β :=
  ⟨fun h =>
    match x.run h with
    | (.ok b, h') => (.ok b, h')
    | (.error o, h') => (.error (o.map f), h')⟩

section MapEnding

variable {δ : Type} (f : α → δ)

@[simp] theorem mapEnding_pure (b : β) : (pure b : Act ε α β).mapEnding f = pure b := rfl

@[simp] theorem mapEnding_stop (o : Ending α) :
    (stop o : Act ε α β).mapEnding f = stop (o.map f) := rfl

@[simp] theorem mapEnding_bind (x : Act ε α β) (g : β → Act ε α γ) :
    (x >>= g).mapEnding f = x.mapEnding f >>= fun b => (g b).mapEnding f := by
  refine congrArg Act.mk (funext fun h => ?_)
  simp only [run_bind, mapEnding]
  rcases x.run h with ⟨_ | _, _⟩ <;> rfl

theorem mapEnding_need (x : Act ε α (Option β)) :
    x.need.mapEnding f = (x.mapEnding f).need := by
  rw [need, mapEnding_bind, need]
  congr 1
  funext b
  cases b <;> rfl

end MapEnding

end Act

namespace World

variable (w : World ε α)

/-- Have an effect. -/
def perform (e : ε) : Act ε α (Option α) :=
  ⟨fun h =>
    match w.reply h e with
    | .returned value => (.ok value, e :: h)
    | .thrown x => (.error (.thrown x), e :: h)
    | .hung => (.error .hung, e :: h)⟩

/-- Have an effect whose answer is a value. -/
def ask (e : ε) : Act ε α α := (w.perform e).need

theorem perform_map (f : α → β) (e : ε) :
    (w.map f).perform e = do return (← (w.perform e).mapEnding f).map f := by
  refine congrArg Act.mk (funext fun h => ?_)
  simp only [Act.mapEnding, perform, World.map]
  cases w.reply h e <;> rfl

theorem ask_map (f : α → β) (e : ε) :
    (w.map f).ask e = do return f (← (w.ask e).mapEnding f) := by
  rw [ask, perform_map, ask, Act.mapEnding_need, Act.need, Act.need]
  simp only [bind_assoc, pure_bind]
  congr 1
  funext b
  cases b <;> rfl

end World

/-! ## Behaviours -/

/-- What shows of a run after some steps: the effects so far, and the outcome once it has ended. -/
inductive Observation (ε α : Type) where
  | running (trace : List ε)
  | finished (ending : Ending α) (trace : List ε)

/-- The effects so far. -/
def Observation.trace : Observation ε α → List ε
  | running trace => trace
  | finished _ trace => trace

/-- Two runs end with the same outcomes behind the same effects, and come to the same effects if
they do not end. -/
structure SameBehaviour (r r' : Nat → Observation ε α) : Prop where
  finishes : ∀ o h, (∃ n, r n = .finished o h) ↔ ∃ n, r' n = .finished o h
  emits : ∀ h, (∃ n, h <:+ (r n).trace) ↔ ∃ n, h <:+ (r' n).trace

namespace SameBehaviour

theorem refl (r : Nat → Observation ε α) : SameBehaviour r r :=
  ⟨fun _ _ => Iff.rfl, fun _ => Iff.rfl⟩

theorem symm {r r' : Nat → Observation ε α} (h : SameBehaviour r r') : SameBehaviour r' r :=
  ⟨fun o t => (h.finishes o t).symm, fun t => (h.emits t).symm⟩

theorem trans {r r' r'' : Nat → Observation ε α} (h : SameBehaviour r r')
    (h' : SameBehaviour r' r'') : SameBehaviour r r'' :=
  ⟨fun o t => (h.finishes o t).trans (h'.finishes o t), fun t => (h.emits t).trans (h'.emits t)⟩

end SameBehaviour

/-! ## Machines -/

/-- What a step leads to: another state, or the end. -/
inductive Progress (σ ε α : Type) where
  | running (state : σ)
  | finished (ending : Ending α) (trace : List ε)

/-- A machine whose state is of type `σ`. -/
structure Machine (σ ε α : Type) where
  step : σ → Progress σ ε α
  /-- The effects so far. -/
  trace : σ → List ε

namespace Machine

variable (M : Machine σ ε α)

/-- Some number of steps, or fewer if the run ends. -/
def run : Nat → σ → Progress σ ε α
  | 0, s => .running s
  | n + 1, s =>
    match M.step s with
    | .running s' => run n s'
    | .finished o h => .finished o h

/-- What shows of a state or of an end. -/
def view : Progress σ ε α → Observation ε α
  | .running s => .running (M.trace s)
  | .finished o h => .finished o h

/-- What shows of a run from a state. -/
def observe (s : σ) (n : Nat) : Observation ε α := M.view (M.run n s)

/-- A state comes to another state or to an end. -/
def Leads (s : σ) (p : Progress σ ε α) : Prop := ∃ n, M.run n s = p

/-- A state comes to another state or to an end by at least one step. -/
def Advances (s : σ) (p : Progress σ ε α) : Prop := ∃ n, M.run (n + 1) s = p

/-- A state is still running after some number of steps or later, with these effects. -/
def Lasts (s : σ) (k : Nat) (h : List ε) : Prop :=
  ∃ n s', k ≤ n ∧ M.run n s = .running s' ∧ M.trace s' = h

/-- No step takes an effect back. -/
def Grows : Prop := ∀ s, M.trace s <:+ (M.view (M.step s)).trace

variable {M} {s s' : σ} {p : Progress σ ε α} {o o' : Ending α} {h h' : List ε} {k l m n : Nat}

/-! ### More steps -/

theorem run_add (m n : Nat) (s : σ) :
    M.run (m + n) s = match M.run m s with
      | .running s' => M.run n s'
      | .finished o h => .finished o h := by
  induction m generalizing s with
  | zero => rw [Nat.zero_add]; rfl
  | succ m ih =>
    rw [Nat.succ_add]
    simp only [run]
    cases M.step s with
    | running s' => exact ih s'
    | finished o h => rfl

theorem run_add_of_running (hs : M.run m s = .running s') (n : Nat) :
    M.run (m + n) s = M.run n s' := by
  rw [run_add, hs]

/-- An end stays the end. -/
theorem run_of_le (hs : M.run m s = .finished o h) (hn : m ≤ n) : M.run n s = .finished o h := by
  obtain ⟨k, rfl⟩ := Nat.exists_eq_add_of_le hn
  rw [run_add, hs]

namespace Leads

theorem refl (M : Machine σ ε α) (s : σ) : M.Leads s (.running s) := ⟨0, rfl⟩

theorem trans (h₁ : M.Leads s (.running s')) (h₂ : M.Leads s' p) : M.Leads s p := by
  obtain ⟨m, hm⟩ := h₁
  obtain ⟨n, hn⟩ := h₂
  exact ⟨m + n, (run_add_of_running hm n).trans hn⟩

/-- One step that goes on. -/
theorem cons (hs : M.step s = .running s') (h : M.Leads s' p) : M.Leads s p :=
  trans ⟨1, by simp only [run, hs]⟩ h

/-- One step. -/
theorem single (hs : M.step s = p) : M.Leads s p := by
  refine ⟨1, ?_⟩
  subst hs
  simp only [run]
  cases M.step s <;> rfl

/-- A run has only one end. -/
theorem unique (h₁ : M.Leads s (.finished o h)) (h₂ : M.Leads s (.finished o' h')) :
    o = o' ∧ h = h' := by
  obtain ⟨m, hm⟩ := h₁
  obtain ⟨n, hn⟩ := h₂
  have hm' := run_of_le hm (Nat.le_max_left m n)
  have hn' := run_of_le hn (Nat.le_max_right m n)
  rw [hm'] at hn'
  cases hn'
  exact ⟨rfl, rfl⟩

end Leads

namespace Advances

/-- What does not stay as it is advances. -/
theorem of_leads (h : M.Leads s p) (hne : p ≠ .running s) : M.Advances s p := by
  obtain ⟨n, hn⟩ := h
  cases n with
  | zero => exact absurd hn.symm hne
  | succ n => exact ⟨n, hn⟩

theorem trans (h : M.Leads s (.running s')) (h' : M.Advances s' p) : M.Advances s p := by
  obtain ⟨m, hm⟩ := h
  obtain ⟨n, hn⟩ := h'
  exact ⟨m + n, (run_add_of_running hm (n + 1)).trans hn⟩

/-- One step. -/
theorem single (hs : M.step s = p) : M.Advances s p := by
  refine ⟨0, ?_⟩
  subst hs
  simp only [run]
  cases M.step s <;> rfl

end Advances

namespace Lasts

theorem refl (M : Machine σ ε α) (s : σ) : M.Lasts s 0 (M.trace s) := ⟨0, s, Nat.le_refl 0, rfl, rfl⟩

theorem mono (h₁ : M.Lasts s k h) (hl : l ≤ k) : M.Lasts s l h := by
  obtain ⟨n, s', hn, hs⟩ := h₁
  exact ⟨n, s', Nat.le_trans hl hn, hs⟩

/-- What comes to a state that lasts, lasts. -/
theorem of_leads (h₁ : M.Leads s (.running s')) (h₂ : M.Lasts s' k h) : M.Lasts s k h := by
  obtain ⟨m, hm⟩ := h₁
  obtain ⟨n, t, hn, ht, hh⟩ := h₂
  exact ⟨m + n, t, by omega, (run_add_of_running hm n).trans ht, hh⟩

/-- One step makes it last one step longer. -/
theorem cons (hs : M.step s = .running s') (h₂ : M.Lasts s' k h) : M.Lasts s (k + 1) h := by
  obtain ⟨n, t, hn, ht, hh⟩ := h₂
  exact ⟨n + 1, t, by omega, by simp only [run, hs, ht], hh⟩

end Lasts

/-! ### Effects are never taken back -/

theorem trace_run_mono (hM : M.Grows) (n : Nat) (s : σ) :
    M.trace s <:+ (M.view (M.run n s)).trace := by
  induction n generalizing s with
  | zero => exact List.suffix_refl _
  | succ n ih =>
    have h₁ := hM s
    simp only [run]
    cases hs : M.step s with
    | running s' =>
      rw [hs] at h₁
      exact h₁.trans (ih s')
    | finished o h =>
      rw [hs] at h₁
      exact h₁

theorem trace_observe_mono (hM : M.Grows) (s : σ) (hmn : m ≤ n) :
    (M.observe s m).trace <:+ (M.observe s n).trace := by
  obtain ⟨k, rfl⟩ := Nat.exists_eq_add_of_le hmn
  unfold observe
  rw [run_add]
  cases M.run m s with
  | running s' => exact trace_run_mono hM k s'
  | finished o h => exact List.suffix_refl _

end Machine

/-! ## Simulations -/

/-- **A machine that ends as a run ends, and lasts as long as it lasts, behaves like it.** The run
has one observation for each number of steps, and so has the machine, so nothing has to be shown for
the other direction. -/
theorem SameBehaviour.of_simulation {M : Machine σ ε α} (hM : M.Grows) {s : σ}
    {r : Nat → Observation ε α}
    (ends : ∀ n o h, r n = .finished o h → M.Leads s (.finished o h))
    (lasts : ∀ n h, r n = .running h → M.Lasts s n h) : SameBehaviour r (M.observe s) := by
  have observe_of_run {n o h} (hn : M.run n s = .finished o h) : M.observe s n = .finished o h := by
    unfold Machine.observe
    rw [hn]
    rfl
  have run_of_observe {n o h} (hn : M.observe s n = .finished o h) : M.run n s = .finished o h := by
    unfold Machine.observe at hn
    cases hr : M.run n s with
    | running s' => rw [hr] at hn; cases hn
    | finished o' h' => rw [hr] at hn; cases hn; rfl
  refine ⟨fun o h => ⟨?_, ?_⟩, fun h => ⟨?_, ?_⟩⟩
  · rintro ⟨n, hn⟩
    obtain ⟨m, hm⟩ := ends n o h hn
    exact ⟨m, observe_of_run hm⟩
  · rintro ⟨n, hn⟩
    have hs := run_of_observe hn
    cases hr : r n with
    | running t =>
      obtain ⟨m, s', hm, hs', -⟩ := lasts n t hr
      rw [Machine.run_of_le hs hm] at hs'
      cases hs'
    | finished o' t =>
      obtain ⟨rfl, rfl⟩ := Machine.Leads.unique ⟨n, hs⟩ (ends n o' t hr)
      exact ⟨n, hr⟩
  · rintro ⟨n, hn⟩
    cases hr : r n with
    | running t =>
      obtain ⟨m, s', -, hs', rfl⟩ := lasts n t hr
      refine ⟨m, ?_⟩
      unfold Machine.observe
      rw [hs']
      rwa [hr] at hn
    | finished o t =>
      obtain ⟨m, hm⟩ := ends n o t hr
      exact ⟨m, by rw [observe_of_run hm]; rwa [hr] at hn⟩
  · rintro ⟨n, hn⟩
    refine ⟨n, hn.trans ?_⟩
    cases hr : r n with
    | running t =>
      obtain ⟨m, s', hm, hs', rfl⟩ := lasts n t hr
      have hmono := Machine.trace_observe_mono hM s hm
      unfold Machine.observe at hmono ⊢
      rwa [hs'] at hmono
    | finished o t =>
      obtain ⟨m, hm⟩ := ends n o t hr
      have hmono := Machine.trace_observe_mono hM s (Nat.le_max_left n m)
      rwa [observe_of_run (Machine.run_of_le hm (Nat.le_max_right n m))] at hmono

end MiniJava
