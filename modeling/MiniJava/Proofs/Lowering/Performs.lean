import MiniJava.Proofs.Lowering.Issued

/-!
# What lowered code does to the variables

Lowered code runs among variables of which some belong to the program and the others are temporary.
`Performs` is a triple of Hoare logic for such code: where the variables fulfil a condition, the
code does what an act does, and then they fulfil another. Apart from this it keeps all names that
the supply, with which it was made, could not issue any more (`Supply.Keeps`). So it keeps the
variables of the program and all operands made earlier.

There is one rule for each way in which lowered code is put together.
-/

namespace MiniJava

open Ir

/-- The variables of these names have the same values. -/
def Vars.AgreesOn (names : List String) (vars μ : Vars) : Prop := ∀ x ∈ names, μ x = vars x

theorem Vars.AgreesOn.set {names : List String} {vars μ : Vars} (h : AgreesOn names vars μ)
    (x : String) (v : Val) : AgreesOn names (vars.set x v) (μ.set x v) := by
  intro y hy
  by_cases hxy : y = x
  · rw [hxy, Vars.set_self, Vars.set_self]
  · rw [Vars.set_of_ne _ v hxy, Vars.set_of_ne _ v hxy, h y hy]

namespace Ir

/-- The language of three-address code, with the effects that a tree has. -/
abbrev erased (w : World MiniJava.Effect Val) : Language Instr Vars MiniJava.Effect Val :=
  language Effect.erase w

variable {s s' s'' : Supply} {μ μ' μ'' : Vars} {o : Operand}

/-! ## What stays as it is -/

namespace Supply

/-- The variables that may not be issued keep their values. -/
def Keeps (s : Supply) (μ μ' : Vars) : Prop := ∀ x, ¬s.MayIssue x → μ' x = μ x

theorem Keeps.refl (s : Supply) (μ : Vars) : s.Keeps μ μ := fun _ _ => rfl

theorem Keeps.trans (h : s.Keeps μ μ') (hs : s.Precedes s') (h' : s'.Keeps μ' μ'') :
    s.Keeps μ μ'' :=
  fun x hx => (h' x fun hmay => hx (hs.mayIssue hmay)).trans (h x hx)

theorem Keeps.set {x : String} (hx : s.MayIssue x) (v : Val) : s.Keeps μ (μ.set x v) := by
  intro y hy
  refine μ.set_of_ne v ?_
  rintro rfl
  exact hy hx

/-- A condition that goes on to hold while the supply is used. -/
def Stable (s : Supply) (P : Vars → Prop) : Prop := ∀ μ μ', P μ → s.Keeps μ μ' → P μ'

theorem Stable.and {P Q : Vars → Prop} (hP : s.Stable P) (hQ : s.Stable Q) :
    s.Stable fun μ => P μ ∧ Q μ :=
  fun μ μ' h hk => ⟨hP μ μ' h.1 hk, hQ μ μ' h.2 hk⟩

theorem Stable.mono {P : Vars → Prop} (hP : s.Stable P) (hs : s.Precedes s') : s'.Stable P :=
  fun μ μ' h hk => hP μ μ' h fun x hx => hk x fun hmay => hx (hs.mayIssue hmay)

theorem stable_true (s : Supply) : s.Stable fun _ => True := fun _ _ _ _ => trivial

/-- The variables of the program are never issued. -/
theorem stable_agreesOn (s : Supply) (vars : Vars) : s.Stable (Vars.AgreesOn s.reserved vars) :=
  fun _ _ h hk x hx => (hk x fun hmay => hmay.1 hx).trans (h x hx)

end Supply

theorem Operand.Settled.value_eq (ho : o.Settled s) (h : s.Keeps μ μ') (this : Val) :
    o.value this μ' = o.value this μ := by
  cases o with
  | var v => exact h v.name (ho v rfl)
  | literal n t => cases t <;> rfl
  | this | classRef => rfl

theorem Operand.Settled.stable (ho : o.Settled s) (this v : Val) :
    s.Stable fun μ => o.value this μ = v :=
  fun _ _ h hk => (ho.value_eq hk this).trans h

theorem Operand.stable_values {os : List Operand} (hos : ∀ o ∈ os, o.Settled s) (this : Val)
    (vs : List Val) : s.Stable fun μ => os.map (Operand.value this μ) = vs := by
  intro μ μ' h hk
  rw [← h]
  exact List.map_congr_left fun o ho => (hos o ho).value_eq hk this

/-! ## Triples -/

section Triples

variable {β γ : Type} {w : World MiniJava.Effect Val} {P P' : Vars → Prop}
  {Q Q' : β → Vars → Prop} {p q : Code} {x : Act MiniJava.Effect Val β}
  {f : β → Act MiniJava.Effect Val γ} {r : Act MiniJava.Effect Val Val}

/-- Where the variables fulfil `P`, the code does what `x` does; the value of `x` and the variables
fulfil `Q` then, and all is kept that the supply cannot issue. -/
def Performs (w : World MiniJava.Effect Val) (s : Supply) (P : Vars → Prop) (p : Code)
    (x : Act MiniJava.Effect Val β) (Q : β → Vars → Prop) : Prop :=
  ∀ code μ, (labels code).Nodup → P μ →
    (erased w).Computes code p μ x fun b μ' => Q b μ' ∧ s.Keeps μ μ'

namespace Performs

protected theorem pure {b : β} (h : ∀ μ, P μ → Q b μ) : Performs w s P [] (pure b) Q :=
  fun _ μ _ hμ => .pure ⟨h μ hμ, .refl s μ⟩

theorem mono (h : Performs w s P p x Q) (hP : ∀ μ, P' μ → P μ) (hQ : ∀ b μ, Q b μ → Q' b μ) :
    Performs w s P' p x Q' :=
  fun code μ hnodup hμ => (h code μ hnodup (hP μ hμ)).mono fun b μ' h' => ⟨hQ b μ' h'.1, h'.2⟩

/-- Code made with one supply and then the next. What holds of the first value goes on to hold. -/
protected theorem bind {R : β → γ → Vars → Prop} {Q' : γ → Vars → Prop}
    (hx : Performs w s P p x Q) (hs : s.Precedes s') (hP : s.Stable P)
    (hQ : ∀ b, s'.Stable (Q b))
    (hf : ∀ b, Performs w s' (fun μ => P μ ∧ Q b μ) q (f b) (R b))
    (hQ' : ∀ b c μ, Q b μ → R b c μ → Q' c μ) : Performs w s P (p ++ q) (x >>= f) Q' := by
  intro code μ hnodup hμ
  refine (hx code μ hnodup hμ).bind fun b μ' ⟨hb, hk⟩ => ?_
  refine (hf b code μ' hnodup ⟨hP μ μ' hμ hk, hb⟩).mono fun c μ'' ⟨hc, hk'⟩ => ?_
  exact ⟨hQ' b c μ'' (hQ b μ' μ'' hb hk') hc, hk.trans hs hk'⟩

/-- Code made with one supply, where only the second condition matters behind it. -/
theorem seq {Q' : γ → Vars → Prop} (hx : Performs w s P p x Q) (hP : s.Stable P)
    (hf : ∀ b, Performs w s (fun μ => P μ ∧ Q b μ) q (f b) Q') :
    Performs w s P (p ++ q) (x >>= f) Q' := by
  intro code μ hnodup hμ
  refine (hx code μ hnodup hμ).bind fun b μ' ⟨hb, hk⟩ => ?_
  exact (hf b code μ' hnodup ⟨hP μ μ' hμ hk, hb⟩).mono fun c μ'' ⟨hc, hk'⟩ =>
    ⟨hc, hk.trans (.refl s) hk'⟩

/-- Code made with a later supply. -/
theorem of_precedes (h : Performs w s' P p x Q) (hs : s.Precedes s') : Performs w s P p x Q :=
  fun code μ hnodup hμ => (h code μ hnodup hμ).mono fun _ _ h' =>
    ⟨h'.1, (Supply.Keeps.refl s μ).trans hs h'.2⟩

theorem map {g : β → γ} {Q' : γ → Vars → Prop} (hx : Performs w s P p x Q)
    (hQ : ∀ b μ, Q b μ → Q' (g b) μ) : Performs w s P p (do return g (← x)) Q' :=
  fun code μ hnodup hμ => (hx code μ hnodup hμ).map fun b μ' h => ⟨hQ b μ' h.1, h.2⟩

/-- An instruction that changes no variable. -/
theorem effect {i : Instr}
    (hact : ∀ μ, P μ → i.act Effect.erase w μ = do let _ ← x; return .fall μ) :
    Performs w s P [i] x fun _ μ => P μ :=
  fun _ μ _ hμ => .single (g := fun _ => μ) (hact μ hμ) fun _ => ⟨hμ, .refl s μ⟩

/-- An assignment to a name that may be issued. -/
theorem assign {dest : Var} {rhs : Rhs} (hdest : s.MayIssue dest.name)
    (hr : ∀ μ, P μ → rhs.eval Effect.erase w μ = r) :
    Performs w s P [.assign dest rhs] r fun b μ => μ dest.name = b := by
  intro code μ _ hμ
  refine .single (g := μ.set dest.name) ?_ fun b => ⟨μ.set_self dest.name b, .set hdest b⟩
  simp only [language, Instr.act, hr μ hμ]

/-- The values of two operands. -/
theorem both {y : Act MiniJava.Effect Val γ} {R : β → Vars → Prop} {R' : γ → Vars → Prop}
    (hx : Performs w s P p x R) (hs : s.Precedes s') (hP : s.Stable P)
    (hR : ∀ b, s'.Stable (R b)) (hy : Performs w s' P q y R') :
    Performs w s P (p ++ q) (do let b ← x; return (b, ← y)) fun bc μ => R bc.1 μ ∧ R' bc.2 μ := by
  refine hx.bind (R := fun b bc μ => bc.1 = b ∧ R' bc.2 μ) hs hP hR
    (fun b => (hy.mono (fun μ h => h.1) fun _ _ h => h).map fun c μ h => ⟨rfl, h⟩) ?_
  rintro b ⟨_, c⟩ μ hb ⟨rfl, hc⟩
  exact ⟨hb, hc⟩

/-- Code for two cases. -/
theorem cases {y : Act MiniJava.Effect Val β} {condition : Operand} {v : Val}
    {thenLabel endLabel : String} {elseCode thenCode : Code}
    (hv : ∀ μ, P μ → condition.value w.this μ = v) (hthen : Performs w s P thenCode x Q)
    (helse : Performs w s P elseCode y Q) :
    Performs w s P (cases condition thenLabel endLabel elseCode thenCode)
      (do if ← v.truth then x else y) Q := by
  intro code μ hnodup hμ
  rw [← hv μ hμ]
  exact computes_cases hnodup (fun _ => hthen code μ hnodup hμ) fun _ => helse code μ hnodup hμ

end Performs

/-- The code does what `x` does and then has assigned the value to a variable. -/
def Sets (w : World MiniJava.Effect Val) (s : Supply) (P : Vars → Prop) (p : Code)
    (x : Act MiniJava.Effect Val Val) (dest : Var) : Prop :=
  ∀ code μ, (labels code).Nodup → P μ →
    (erased w).Computes code p μ x fun b μ' => ∃ μ₁, s.Keeps μ μ₁ ∧ μ' = μ₁.set dest.name b

/-- A value is computed and then assigned to any variable. -/
theorem Performs.sets {f : β → Act MiniJava.Effect Val Val} (hx : Performs w s P p x Q)
    {rhs : Rhs} (hr : ∀ b μ, Q b μ → rhs.eval Effect.erase w μ = f b) (dest : Var) :
    Sets w s P (p ++ [.assign dest rhs]) (x >>= f) dest := by
  intro code μ hnodup hμ
  refine (hx code μ hnodup hμ).bind fun b μ' ⟨hb, hk⟩ => ?_
  refine .single (g := μ'.set dest.name) ?_ fun c => ⟨μ', hk, rfl⟩
  simp only [language, Instr.act, hr b μ' hb]

end Triples

end Ir

end MiniJava
