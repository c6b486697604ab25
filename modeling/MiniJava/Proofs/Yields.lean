import Mathlib.Logic.Basic

/-!
# Computations with a state that may fail

Trees are numbered, lowered and emitted by computations in `StateT σ (Except ε)`. `Yields x Q E`
says that the value of `x` fulfils `Q`, or else the failure of `x` fulfils `E`, whatever the state.
The rules follow the monad. Where the states matter, `run_bind_eq_ok` takes a run apart, and
`Leaves P x Q` says that `x` leads from a state that fulfils `P` to a value and a state that fulfil
`Q`, unless it fails.
-/

namespace MiniJava

variable {σ ε α β : Type}

/-! ## Outcomes -/

theorem bind_eq_ok {x : Except ε α} {f : α → Except ε β} {b : β} :
    (x >>= f) = .ok b ↔ ∃ a, x = .ok a ∧ f a = .ok b := by
  cases x <;> simp [bind, Except.bind]

theorem mapError_eq_ok {ε' : Type} {x : Except ε α} {f : ε → ε'} {a : α} :
    x.mapError f = .ok a ↔ x = .ok a := by
  cases x with
  | error e => exact iff_of_false (fun h => by cases h) (fun h => by cases h)
  | ok b => exact ⟨fun h => by cases h; rfl, fun h => by cases h; rfl⟩

/-- A computation whose result passes a test succeeds, and its result passes. -/
theorem exists_eq_ok_of_any {x : Except ε α} {p : α → Bool} (h : x.toOption.any p = true) :
    ∃ a, x = .ok a ∧ p a = true := by
  cases x with
  | error e => cases h
  | ok a => exact ⟨a, rfl, h⟩

/-! ## Runs -/

/-- A run of one computation and then the next that succeeds consists of two runs that do. -/
theorem run_bind_eq_ok {x : StateT σ (Except ε) α} {f : α → StateT σ (Except ε) β} {s s'' : σ}
    {b : β} : (x >>= f).run s = .ok (b, s'') ↔
      ∃ a s', x.run s = .ok (a, s') ∧ (f a).run s' = .ok (b, s'') := by
  rw [StateT.run_bind]
  constructor
  · intro h
    cases hx : x.run s with
    | error e => rw [hx] at h; cases h
    | ok p => exact ⟨p.1, p.2, rfl, by rw [hx] at h; exact h⟩
  · rintro ⟨a, s', hx, hf⟩
    rw [hx]
    exact hf

theorem run_pure_eq_ok {s s' : σ} {a b : α} :
    (pure a : StateT σ (Except ε) α).run s = .ok (b, s') ↔ b = a ∧ s' = s := by
  constructor
  · rintro ⟨⟩
    exact ⟨rfl, rfl⟩
  · rintro ⟨rfl, rfl⟩
    rfl

theorem run_throw_ne_ok {s : σ} {e : ε} {p : α × σ} :
    (throw e : StateT σ (Except ε) α).run s ≠ .ok p := fun h => nomatch h

/-! ## What is yielded -/

variable {P : α → Prop} {Q : β → Prop} {E : ε → Prop}

/-- The value fulfils a condition, and so does the failure if there is one. -/
def Yields (x : StateT σ (Except ε) α) (P : α → Prop) (E : ε → Prop) : Prop :=
  ∀ s, match x.run s with
    | .ok (a, _) => P a
    | .error e => E e

namespace Yields

theorem of_run {x : StateT σ (Except ε) α} (h : Yields x P E) {s s' : σ} {a : α}
    (hx : x.run s = .ok (a, s')) : P a := by
  have h' := h s
  rw [hx] at h'
  exact h'

theorem mono {x : StateT σ (Except ε) α} {P' : α → Prop} (h : Yields x P E)
    (hP : ∀ a, P a → P' a) : Yields x P' E := by
  intro s
  have h' := h s
  split <;> rename_i hx <;> rw [hx] at h'
  · exact hP _ h'
  · exact h'

/-- Nothing is said of the failure any more. -/
theorem anyFailure {x : StateT σ (Except ε) α} (h : Yields x P E) : Yields x P fun _ => True := by
  intro s
  have h' := h s
  split <;> rename_i hx <;> rw [hx] at h'
  · exact h'
  · exact trivial

theorem and {x : StateT σ (Except ε) α} {P' : α → Prop} (h : Yields x P E) (h' : Yields x P' E) :
    Yields x (fun a => P a ∧ P' a) E := by
  intro s
  have hs := h s
  have hs' := h' s
  split <;> rename_i hx <;> rw [hx] at hs hs'
  · exact ⟨hs, hs'⟩
  · exact hs

protected theorem pure {a : α} (h : P a) : Yields (pure a : StateT σ (Except ε) α) P E :=
  fun _ => h

protected theorem throw {e : ε} (h : E e) : Yields (throw e : StateT σ (Except ε) α) P E :=
  fun _ => h

protected theorem bind {x : StateT σ (Except ε) α} {f : α → StateT σ (Except ε) β}
    (hx : Yields x P E) (hf : ∀ a, P a → Yields (f a) Q E) : Yields (x >>= f) Q E := by
  intro s
  rw [StateT.run_bind]
  have hs := hx s
  cases h : x.run s with
  | error e =>
    rw [h] at hs
    exact hs
  | ok p =>
    obtain ⟨a, s'⟩ := p
    rw [h] at hs
    exact hf a hs s'

theorem ite {c : Prop} [Decidable c] {x y : StateT σ (Except ε) α} (hx : c → Yields x P E)
    (hy : ¬c → Yields y P E) : Yields (if c then x else y) P E := by
  by_cases h : c
  · rw [if_pos h]
    exact hx h
  · rw [if_neg h]
    exact hy h

/-- What may fail without a state. -/
theorem lift {x : Except ε α} (hP : ∀ a, x = .ok a → P a) (hE : ∀ e, x = .error e → E e) :
    Yields (liftM x : StateT σ (Except ε) α) P E := by
  intro s
  cases x with
  | ok a => exact hP a rfl
  | error e => exact hE e rfl

/-- The state may be used in any way. -/
theorem state {f : σ → StateT σ (Except ε) β} (hf : ∀ s, Yields (f s) Q E) :
    Yields (get >>= f) Q E := fun s => hf s s

/-- What a computation yields if any failure will do. -/
theorem always {x : StateT σ (Except ε) α} (h : ∀ a, P a) : Yields x P fun _ => True := by
  intro s
  split
  · exact h _
  · exact trivial

/-- The value of the first computation does not matter, nor does any failure. -/
theorem seq {x : StateT σ (Except ε) α} {f : α → StateT σ (Except ε) β}
    (hf : ∀ a, Yields (f a) Q fun _ => True) : Yields (x >>= f) Q fun _ => True :=
  (always (P := fun _ => True) fun _ => trivial).bind fun a _ => hf a

end Yields

/-! ## What is left behind -/

/-- From a state that fulfils `P` the value and the new state fulfil `Q`, if there is no failure. -/
def Leaves (P : σ → Prop) (x : StateT σ (Except ε) α) (Q : α → σ → Prop) : Prop :=
  ∀ s, P s → ∀ a s', x.run s = .ok (a, s') → Q a s'

namespace Leaves

variable {P : σ → Prop} {x : StateT σ (Except ε) α} {Q Q' : α → σ → Prop} {R : β → σ → Prop}

protected theorem pure {a : α} (h : ∀ s, P s → Q a s) :
    Leaves P (pure a : StateT σ (Except ε) α) Q := by
  intro s hs b s' hrun
  obtain ⟨rfl, rfl⟩ := run_pure_eq_ok.mp hrun
  exact h _ hs

protected theorem throw {e : ε} : Leaves P (throw e : StateT σ (Except ε) α) Q :=
  fun _ _ _ _ h => absurd h run_throw_ne_ok

protected theorem bind {f : α → StateT σ (Except ε) β} (hx : Leaves P x Q)
    (hf : ∀ a, Leaves (Q a) (f a) R) : Leaves P (x >>= f) R := by
  intro s hs b s'' hrun
  obtain ⟨a, s', ha, hb⟩ := run_bind_eq_ok.mp hrun
  exact hf a s' (hx s hs a s' ha) b s'' hb

theorem of_imp {P' : σ → Prop} (hx : Leaves P x Q) (h : ∀ s, P' s → P s) : Leaves P' x Q :=
  fun s hs => hx s (h s hs)

theorem mono (hx : Leaves P x Q) (h : ∀ a s, Q a s → Q' a s) : Leaves P x Q' :=
  fun s hs a s' hrun => h a s' (hx s hs a s' hrun)

end Leaves

end MiniJava
