import MiniJava.Proofs.Lowering.Performs

/-!
# The meaning of lowered expressions

The code for an expression does what the expression does: the same effects in the same order, and
then the operand holds the value, or the run ends in the same way (`Scope.means_lowerExpr`).

A lowering `Means` an act if this is so. Besides, code that ends by computing its operand can be
made to compute it into any other variable; this is what an assignment makes of it.
-/

namespace MiniJava

open Ir

namespace Ir

/-- The code of a value does what an act does, and then the operand holds the value. Made to compute
into another variable, the code does that. -/
structure Implements (w : World MiniJava.Effect Val) (vars : Vars) (s : Supply) (v : Value)
    (x : Act MiniJava.Effect Val Val) : Prop where
  performs : Performs w s (Vars.AgreesOn s.reserved vars) v.code x fun b μ =>
    v.operand.value w.this μ = b
  retargets : ∀ dest code, Scope.retarget? dest v = some code →
    Sets w s (Vars.AgreesOn s.reserved vars) code x dest

/-- A lowering makes code that does what an act does. -/
structure Lower.Means (w : World MiniJava.Effect Val) (vars : Vars) (r : List String)
    (x : Lower Value) (act : Act MiniJava.Effect Val Val) : Prop where
  makes : MakesValue r x
  implements : ∀ s v s', s.reserved = r → x.run s = .ok (v, s') → Implements w vars s v act

section Values

variable {w : World MiniJava.Effect Val} {vars : Vars} {s s' s'' : Supply} {v : Value} {p : Code}
  {β : Type} {act act' : Act MiniJava.Effect Val Val} {r : List String}

theorem Implements.of_performs
    (h : Performs w s (Vars.AgreesOn s.reserved vars) v.code act fun b μ =>
      v.operand.value w.this μ = b)
    (hlast : ∀ dest rhs, v.code.getLast? ≠ some (.assign dest rhs)) : Implements w vars s v act := by
  refine ⟨h, fun dest code hcode => ?_⟩
  obtain ⟨front, last, rhs, rfl, -⟩ := Scope.retarget?_eq_some hcode
  exact absurd List.getLast?_concat (hlast last rhs)

/-- A value is computed and then assigned to any variable, by a copy if need be. -/
theorem Implements.sets (h : Implements w vars s v act) (dest : Var) :
    Sets w s (Vars.AgreesOn s.reserved vars)
      ((Scope.retarget? dest v).getD (v.code ++ [.assign dest (.single v.operand)])) act dest := by
  cases hretarget : Scope.retarget? dest v with
  | none =>
    rw [← bind_pure act]
    exact h.performs.sets (fun b μ hb => by rw [Rhs.eval, hb]) dest
  | some code => exact h.retargets dest code hretarget

/-- An operand that needs no code. -/
theorem implements_operand {o : Operand} {b : Val}
    (h : ∀ μ, Vars.AgreesOn s.reserved vars μ → o.value w.this μ = b) :
    Implements w vars s ⟨o, []⟩ (pure b) :=
  .of_performs (.pure h) fun _ _ hlast => nomatch hlast

namespace Lower

/-- An operation behind some code. -/
theorem implements_assignTemp {x : Act MiniJava.Effect Val β} {Q : β → Vars → Prop}
    {f : β → Act MiniJava.Effect Val Val} {rhs : Rhs}
    (hx : Performs w s (Vars.AgreesOn s.reserved vars) p x Q) (hs : s.Precedes s')
    (hQ : ∀ b, s'.Stable (Q b)) (hr : ∀ b μ, Q b μ → rhs.eval Ir.Effect.erase w μ = f b)
    (hv : (assignTemp p rhs).run s' = .ok (v, s'')) : Implements w vars s v (x >>= f) := by
  obtain ⟨rfl, rfl⟩ := assignTemp_eq_ok hv
  refine ⟨hx.bind hs (s.stable_agreesOn vars) hQ
    (fun b => .assign s'.mayIssue_temp fun μ h => hr b μ h.2) fun b c μ _ h => h, ?_⟩
  intro dest code hcode
  obtain ⟨front, last, rhs', hv, rfl⟩ := Scope.retarget?_eq_some hcode
  simp only [Value.mk.injEq, Operand.var.injEq] at hv
  obtain ⟨rfl, hcode⟩ := hv
  obtain ⟨rfl, hi⟩ := List.append_inj' hcode rfl
  cases hi
  exact hx.sets hr dest

/-- An operation on nothing that was computed. -/
theorem implements_operation {rhs : Rhs} (hr : ∀ μ, rhs.eval Ir.Effect.erase w μ = act)
    (hv : (assignTemp [] rhs).run s = .ok (v, s')) : Implements w vars s v act := by
  rw [← pure_bind () fun _ => act]
  exact implements_assignTemp (Q := fun _ _ => True) (.pure fun _ _ => trivial) (.refl s)
    (fun _ => s.stable_true) (fun _ μ _ => hr μ) hv

/-- An operation on one operand. -/
theorem implements_unary {x : Lower Value} (hx : Means w vars r x act) (hs : s.reserved = r)
    {a : Value} (ha : x.run s = .ok (a, s')) {f : Val → Act MiniJava.Effect Val Val} {rhs : Rhs}
    (hr : ∀ b μ, a.operand.value w.this μ = b → rhs.eval Ir.Effect.erase w μ = f b)
    (hv : (assignTemp a.code rhs).run s' = .ok (v, s'')) : Implements w vars s v (act >>= f) := by
  have hmade := hx.makes s a s' hs ha
  exact implements_assignTemp (hx.implements s a s' hs ha).performs hmade.precedes
    (fun b => (hmade.settled _ List.mem_cons_self).stable w.this b) hr hv

theorem performs_toVar {x : Act MiniJava.Effect Val Val} {P : Vars → Prop}
    (h : Performs w s P v.code x fun b μ => v.operand.value w.this μ = b) (hP : s.Stable P)
    (hmade : Made s s' v.code [v.operand]) {a : Var × Code}
    (ha : (toVar v).run s' = .ok (a, s'')) :
    Performs w s P a.2 x fun b μ => μ a.1.name = b := by
  unfold toVar at ha
  split at ha
  · rename_i y hy
    cases ha
    rw [hy] at h
    exact h
  · obtain ⟨dest, s₁, hdest, ha⟩ := run_bind_eq_ok.mp ha
    obtain ⟨rfl, rfl⟩ := temp_eq_ok hdest
    obtain ⟨rfl, rfl⟩ := run_pure_eq_ok.mp ha
    rw [← bind_pure x]
    refine h.bind hmade.precedes hP
      (fun b => (hmade.settled _ List.mem_cons_self).stable w.this b)
      (fun b => .assign s'.mayIssue_temp fun μ hμ => ?_) fun b c μ _ hc => hc
    rw [Rhs.eval, hμ.2]

/-! ## Several values -/

section Lists

variable {xs : List (Lower Value)} {acts : List (Act MiniJava.Effect Val Val)}

theorem Means.forall_makes (h : List.Forall₂ (Means w vars r) xs acts) :
    ∀ x ∈ xs, MakesValue r x := by
  induction h with
  | nil => exact fun _ hx => nomatch hx
  | cons hx _ ih => exact List.forall_mem_cons.mpr ⟨hx.makes, ih⟩

theorem performs_inOrder (h : List.Forall₂ (Means w vars r) xs acts) (hs : s.reserved = r)
    {a : List Operand × Code} (ha : (inOrder xs).run s = .ok (a, s')) :
    Performs w s (Vars.AgreesOn s.reserved vars) a.2 (Act.inOrder acts) fun vs μ =>
      a.1.map (Operand.value w.this μ) = vs := by
  induction h generalizing s a with
  | nil =>
    cases ha
    exact .pure fun _ _ => rfl
  | @cons x act xs acts hx _ ih =>
    obtain ⟨v, s₁, hv, ha⟩ := run_bind_eq_ok.mp ha
    obtain ⟨b, s₂, hb, ha⟩ := run_bind_eq_ok.mp ha
    obtain ⟨rfl, rfl⟩ := run_pure_eq_ok.mp ha
    have hmade := hx.makes s v s₁ hs hv
    have hrest := ih (hmade.precedes.reserved.trans hs) hb
    rw [hmade.precedes.reserved] at hrest
    refine (hx.implements s v s₁ hs hv).performs.bind
      (R := fun c vs μ => c :: b.1.map (Operand.value w.this μ) = vs)
      hmade.precedes (s.stable_agreesOn vars)
      (fun c => (hmade.settled _ List.mem_cons_self).stable w.this c)
      (fun c => (hrest.mono (fun μ h => h.1) fun _ _ h => h).map fun _ _ h => by rw [h]) ?_
    intro c vs μ hc hvs
    rw [List.map_cons, hc, hvs]

/-- Storing the values goes on behind each of them. -/
theorem performs_storeFrom (h : List.Forall₂ (Means w vars r) xs acts) (hs : s.reserved = r)
    {array : Var} (harray : (Operand.var array).Settled s) (index : Nat) {b : Val} {code : Code}
    (hcode : (storeFrom array index xs).run s = .ok (code, s')) :
    Performs w s (fun μ => Vars.AgreesOn s.reserved vars μ ∧ μ array.name = b) code
      (w.storeFrom b index acts) fun _ _ => True := by
  induction h generalizing s index code with
  | nil =>
    cases hcode
    exact .pure fun _ _ => trivial
  | @cons x act xs acts hx _ ih =>
    obtain ⟨v, s₁, hv, hcode⟩ := run_bind_eq_ok.mp hcode
    obtain ⟨rest, s₂, hrest, hcode⟩ := run_bind_eq_ok.mp hcode
    obtain ⟨rfl, rfl⟩ := run_pure_eq_ok.mp hcode
    have hmade := hx.makes s v s₁ hs hv
    have hsettled := harray.mono hmade.precedes
    have hstable : s.Stable fun μ => Vars.AgreesOn s.reserved vars μ ∧ μ array.name = b :=
      (s.stable_agreesOn vars).and (harray.stable w.this b)
    have hnext := ih (hmade.precedes.reserved.trans hs) hsettled (index + 1) hrest
    rw [hmade.precedes.reserved] at hnext
    refine ((hx.implements s v s₁ hs hv).performs.mono (fun μ h => h.1) fun _ _ h => h).bind
      hmade.precedes hstable
      (fun c => (hmade.settled _ List.mem_cons_self).stable w.this c)
      (fun c => ?_) fun _ _ _ _ h => h
    have hstore : Performs w s₁
        (fun μ => (Vars.AgreesOn s.reserved vars μ ∧ μ array.name = b) ∧
          v.operand.value w.this μ = c) [.arrayStore array (.int (.ofNat index)) v.operand]
        (w.perform (.arrayStore b (.int (.ofNat index)) c)) fun _ μ =>
          (Vars.AgreesOn s.reserved vars μ ∧ μ array.name = b) ∧ v.operand.value w.this μ = c := by
      refine .effect fun μ hμ => ?_
      rw [Instr.act, hμ.1.2, hμ.2]
      rfl
    refine hstore.bind (.refl s₁) ((hstable.mono hmade.precedes).and
      ((hmade.settled _ List.mem_cons_self).stable w.this c)) (fun _ => ?_) (fun _ => ?_)
      fun _ _ _ _ h => h
    · exact (hstable.mono hmade.precedes).and
        ((hmade.settled _ List.mem_cons_self).stable w.this c)
    · exact hnext.mono (fun μ h => h.1.1) fun _ _ h => h

/-- If anything is stored, that is the last thing done. -/
theorem storeFrom_eq_ok {x : Lower Value} {array : Var} {index : Nat} {code : Code}
    (h : (storeFrom array index (x :: xs)).run s = .ok (code, s')) :
    ∃ front i o, code = front ++ [.arrayStore array i o] := by
  induction xs generalizing x index s code with
  | nil =>
    obtain ⟨v, s₁, -, h⟩ := run_bind_eq_ok.mp h
    obtain ⟨rest, s₂, hrest, h⟩ := run_bind_eq_ok.mp h
    cases hrest
    obtain ⟨rfl, rfl⟩ := run_pure_eq_ok.mp h
    exact ⟨_, _, _, rfl⟩
  | cons y ys ih =>
    obtain ⟨v, s₁, -, h⟩ := run_bind_eq_ok.mp h
    obtain ⟨rest, s₂, hrest, h⟩ := run_bind_eq_ok.mp h
    obtain ⟨rfl, rfl⟩ := run_pure_eq_ok.mp h
    obtain ⟨front, i, o, rfl⟩ := ih hrest
    exact ⟨v.code ++ .arrayStore array (.int (.ofNat index)) v.operand :: front, i, o, by simp⟩

theorem implements_packArray (h : List.Forall₂ (Means w vars r) xs acts) (hs : s.reserved = r)
    {t : IrType} {a : Var × Code} (ha : (packArray t xs).run s = .ok (a, s')) :
    Implements w vars s ⟨.var a.1, a.2⟩ (w.pack t acts) := by
  cases xs with
  | nil =>
    cases h
    have hassign : (assignTemp [] (.newArray (.int 0) t)).run s = .ok (⟨.var a.1, a.2⟩, s') := by
      cases ha
      rfl
    have hpack : w.pack t [] = w.ask (.newArray t (.int 0)) := by
      simp [World.pack, World.storeFrom]
    rw [hpack]
    exact implements_operation (fun _ => rfl) hassign
  | cons x xs =>
    obtain ⟨array, s₁, harray, ha⟩ := run_bind_eq_ok.mp ha
    obtain ⟨rfl, rfl⟩ := temp_eq_ok harray
    obtain ⟨code, s₂, hcode, ha⟩ := run_bind_eq_ok.mp ha
    obtain ⟨rfl, rfl⟩ := run_pure_eq_ok.mp ha
    have hsettled : (Operand.var ⟨s.temp.1, t⟩).Settled s.temp.2 :=
      (Made.temp s t).settled _ List.mem_cons_self
    have hstore (b : Val) : Performs w s.temp.2
        (fun μ => Vars.AgreesOn s.reserved vars μ ∧ μ s.temp.1 = b) code
        (do w.storeFrom b 0 acts; return b) fun c _ => c = b :=
      (performs_storeFrom (s := s.temp.2) h hs hsettled 0 hcode).map (g := fun _ => b) fun _ _ _ => rfl
    refine .of_performs ?_ fun dest rhs hlast => ?_
    · have hnew : Performs w s (Vars.AgreesOn s.reserved vars)
          [.assign ⟨s.temp.1, t⟩ (.newArray (.int (.ofNat (x :: xs).length)) t)]
          (w.ask (.newArray t (.int (.ofNat acts.length)))) fun b μ => μ s.temp.1 = b := by
        rw [← h.length_eq]
        exact .assign s.mayIssue_temp fun _ _ => rfl
      exact hnew.bind (.temp s) (s.stable_agreesOn vars) (fun b => hsettled.stable w.this b)
        hstore fun b c μ hb hc => hb.trans hc.symm
    · obtain ⟨front, i, o, rfl⟩ := storeFrom_eq_ok hcode
      rw [← List.cons_append, List.getLast?_concat] at hlast
      cases hlast

end Lists

/-! ## Operators -/

section Operators

variable {x y : Lower Value}

theorem conjunction_eq_ok (h : (conjunction x y).run s = .ok (v, s')) :
    ∃ a b s₁, x.run (s.label .and).2.temp.2 = .ok (a, s₁) ∧ y.run s₁ = .ok (b, s') ∧
      v = ⟨.var ⟨(s.label .and).2.temp.1, .boolean⟩,
        a.code ++ cases a.operand ("and_true_" ++ toString (s.label .and).1)
          ("and_end_" ++ toString (s.label .and).1)
          [.assign ⟨(s.label .and).2.temp.1, .boolean⟩ (.single (.bool false))]
          (b.code ++ [.assign ⟨(s.label .and).2.temp.1, .boolean⟩ (.single b.operand)])⟩ := by
  obtain ⟨a, b, s₁, ha, hb, rfl⟩ := logical_eq_ok (k := .and) h
  exact ⟨a, b, s₁, ha, hb, by simp [cases]⟩

theorem disjunction_eq_ok (h : (disjunction x y).run s = .ok (v, s')) :
    ∃ a b s₁, x.run (s.label .or).2.temp.2 = .ok (a, s₁) ∧ y.run s₁ = .ok (b, s') ∧
      v = ⟨.var ⟨(s.label .or).2.temp.1, .boolean⟩,
        a.code ++ cases a.operand ("or_true_" ++ toString (s.label .or).1)
          ("or_end_" ++ toString (s.label .or).1)
          (b.code ++ [.assign ⟨(s.label .or).2.temp.1, .boolean⟩ (.single b.operand)])
          [.assign ⟨(s.label .or).2.temp.1, .boolean⟩ (.single (.bool true))]⟩ := by
  obtain ⟨a, b, s₁, ha, hb, rfl⟩ := logical_eq_ok (k := .or) h
  exact ⟨a, b, s₁, ha, hb, by simp [cases]⟩

/-- A value that is computed into a variable made earlier. -/
theorem performs_computed (hy : Means w vars r y act) (hs : s.reserved = r) (hs' : s.Precedes s')
    {b : Value} (hb : y.run s' = .ok (b, s'')) (dest : Var) (hdest : s.MayIssue dest.name) :
    Performs w s (Vars.AgreesOn s.reserved vars) (b.code ++ [.assign dest (.single b.operand)]) act
      fun v μ => μ dest.name = v := by
  have hcode := (hy.implements s' b s'' (hs'.reserved.trans hs) hb).performs
  rw [hs'.reserved] at hcode
  rw [← bind_pure act]
  refine (hcode.of_precedes hs').seq (s.stable_agreesOn vars) fun v => .assign hdest fun μ hμ => ?_
  rw [Rhs.eval, hμ.2]

/-- The variable for the result is made before the operands, so it is kept while they are
computed. -/
theorem implements_logical (hx : Means w vars r x act) (hs : s.reserved = r) {k : LabelKind}
    {a : Value} (ha : x.run (s.label k).2.temp.2 = .ok (a, s')) (thenLabel endLabel : String)
    {elseCode thenCode : Code} {actTrue actFalse : Act MiniJava.Effect Val Val}
    (hthen : Performs w (s.label k).2 (Vars.AgreesOn s.reserved vars) thenCode actTrue
      fun v μ => μ (s.label k).2.temp.1 = v)
    (helse : Performs w (s.label k).2 (Vars.AgreesOn s.reserved vars) elseCode actFalse
      fun v μ => μ (s.label k).2.temp.1 = v) :
    Implements w vars s ⟨.var ⟨(s.label k).2.temp.1, .boolean⟩,
      a.code ++ cases a.operand thenLabel endLabel elseCode thenCode⟩ (do
        if ← (← act).truth then actTrue else actFalse) := by
  have hlabel := (Supply.Issues.label s k).precedes
  have htemp := Supply.Precedes.temp (s.label k).2
  have hreserved := htemp.reserved.trans hlabel.reserved
  have hcode := (hx.implements _ a s' (hreserved.trans hs) ha).performs
  have hstable := (s.label k).2.stable_agreesOn vars
  rw [hreserved] at hcode
  rw [hlabel.reserved] at hstable
  refine .of_performs (((hcode.of_precedes htemp).seq hstable fun v => ?_).of_precedes hlabel) ?_
  · exact .cases (fun μ h => h.2) (hthen.mono (fun μ h => h.1) fun _ _ h => h)
      (helse.mono (fun μ h => h.1) fun _ _ h => h)
  · intro dest rhs hlast
    rw [Ir.cases, ← List.append_assoc, List.getLast?_concat] at hlast
    cases hlast

theorem means_conjunction (hx : Means w vars r x act) (hy : Means w vars r y act') :
    Means w vars r (conjunction x y) (BinaryOp.and.apply act act') := by
  refine ⟨conjunction_makes hx.makes hy.makes, fun s v s' hs h => ?_⟩
  obtain ⟨a, b, s₁, ha, hb, rfl⟩ := conjunction_eq_ok h
  have hlabel : (s.label .and).2.reserved = r := hs
  have htemp : (s.label .and).2.temp.2.reserved = r := hs
  have hs₁ := (Supply.Precedes.temp (s.label .and).2).trans (hx.makes _ a s₁ htemp ha).precedes
  exact implements_logical hx hs ha _ _
    (performs_computed hy hlabel hs₁ hb ⟨_, .boolean⟩ (Supply.mayIssue_temp _))
    (.assign (Supply.mayIssue_temp _) fun _ _ => rfl)

theorem means_disjunction (hx : Means w vars r x act) (hy : Means w vars r y act') :
    Means w vars r (disjunction x y) (BinaryOp.or.apply act act') := by
  refine ⟨disjunction_makes hx.makes hy.makes, fun s v s' hs h => ?_⟩
  obtain ⟨a, b, s₁, ha, hb, rfl⟩ := disjunction_eq_ok h
  have hlabel : (s.label .or).2.reserved = r := hs
  have htemp : (s.label .or).2.temp.2.reserved = r := hs
  have hs₁ := (Supply.Precedes.temp (s.label .or).2).trans (hx.makes _ a s₁ htemp ha).precedes
  exact implements_logical hx hs ha _ _ (.assign (Supply.mayIssue_temp _) fun _ _ => rfl)
    (performs_computed hy hlabel hs₁ hb ⟨_, .boolean⟩ (Supply.mayIssue_temp _))

/-- Two values, where the operand of the first is still settled behind the second. -/
theorem performs_operands {o : Operand} (hx : Performs w s (Vars.AgreesOn s.reserved vars) p act
      fun b μ => o.value w.this μ = b) (hmade : Made s s' p [o]) (hy : Means w vars r y act')
    (hs : s'.reserved = r) {b : Value} (hb : y.run s' = .ok (b, s'')) :
    Performs w s (Vars.AgreesOn s.reserved vars) (p ++ b.code) (do let x ← act; return (x, ← act'))
      fun xy μ => o.value w.this μ = xy.1 ∧ b.operand.value w.this μ = xy.2 := by
  have hright := (hy.implements s' b s'' hs hb).performs
  rw [hmade.precedes.reserved] at hright
  exact hx.both hmade.precedes (s.stable_agreesOn vars)
    (fun c => (hmade.settled o List.mem_cons_self).stable w.this c) hright

theorem stable_operands {o o' : Operand} (hmade : Made s s' p [o, o']) (xy : Val × Val) :
    s'.Stable fun μ => o.value w.this μ = xy.1 ∧ o'.value w.this μ = xy.2 :=
  ((hmade.settled o List.mem_cons_self).stable w.this xy.1).and
    ((hmade.settled o' (List.mem_cons_of_mem o List.mem_cons_self)).stable w.this xy.2)

/-- An operator on two values that are both computed. -/
theorem means_operation {op : BinaryOp} {op' : BinOp} (hop : BinOp.ofOperator? op = some op')
    (hx : Means w vars r x act) (hy : Means w vars r y act') :
    Means w vars r (binary op x y) (op.apply act act') := by
  refine ⟨binary_makes op hx.makes hy.makes, fun s v s' hs h => ?_⟩
  have happly : op.apply act act' = (do let x ← act; return (x, ← act')) >>= fun xy =>
      .ofExcept (op.eval xy.1 xy.2) := by
    cases op <;> cases hop <;> simp [BinaryOp.apply]
  unfold binary at h
  rw [hop] at h
  obtain ⟨a, s₁, ha, h⟩ := run_bind_eq_ok.mp h
  obtain ⟨b, s₂, hb, h⟩ := run_bind_eq_ok.mp h
  have hmade := hx.makes s a s₁ hs ha
  have hs₁ := hmade.precedes.reserved.trans hs
  have hmade' := hmade.append (hy.makes s₁ b s₂ hs₁ hb)
  rw [happly]
  refine implements_assignTemp
    (performs_operands (hx.implements s a s₁ hs ha).performs hmade hy hs₁ hb)
    hmade'.precedes (stable_operands hmade') (fun xy μ hxy => ?_) h
  rw [Rhs.eval, hxy.1, hxy.2, BinOp.toOperator_of_ofOperator? hop]

theorem means_binary (op : BinaryOp) (hx : Means w vars r x act) (hy : Means w vars r y act') :
    Means w vars r (binary op x y) (op.apply act act') := by
  cases op with
  | and => exact means_conjunction hx hy
  | or => exact means_disjunction hx hy
  | _ => exact means_operation rfl hx hy

end Operators

end Lower

end Values

end Ir

/-! ## Names and calls -/

namespace Scope

variable {sc : Scope} {w : World Effect Val} {vars : Vars} {r : List String} {s s' : Supply}

open Lower

theorem means_lowerName (hr : sc.Reserves r) (name : String) (p : Position) :
    Means w vars r (sc.lowerName name p) (sc.readName w vars name) := by
  refine ⟨sc.lowerName_makes hr name p, fun s v s' hs h => ?_⟩
  unfold lowerName at h
  unfold readName
  cases hb : sc.lookup? name with
  | none =>
    rw [hb] at h
    exact absurd h run_throw_ne_ok
  | some b =>
    rw [hb] at h
    have hvar (hb' : b.isMethodVariable = true) (μ : Vars)
        (hμ : Vars.AgreesOn s.reserved vars μ) : μ name = vars name :=
      hμ name (hs.symm ▸ hr name b hb hb')
    cases b with
    | imported path =>
      obtain ⟨rfl, rfl⟩ := run_pure_eq_ok.mp h
      exact implements_operand fun _ _ => rfl
    | param i t =>
      obtain ⟨rfl, rfl⟩ := run_pure_eq_ok.mp h
      exact implements_operand (hvar rfl)
    | «local» t =>
      obtain ⟨rfl, rfl⟩ := run_pure_eq_ok.mp h
      exact implements_operand (hvar rfl)
    | field t => exact implements_operation (fun _ => rfl) h

section Calls

variable (receiver : Node) (method : String) (arguments : List Node)
  {values : List (Lower Value)} {acts : List (Act Effect Val Val)}

theorem performs_lowerArguments (h : List.Forall₂ (Means w vars r) values acts)
    (hs : s.reserved = r) {a : List Operand × Code}
    (ha : (sc.lowerArguments receiver method arguments values).run s = .ok (a, s')) :
    Performs w s (Vars.AgreesOn s.reserved vars) a.2
      (sc.passArguments w receiver method arguments acts) fun vs μ =>
        a.1.map (Operand.value w.this μ) = vs := by
  rw [lowerArguments_eq] at ha
  rw [passArguments_eq]
  split at ha
  · rename_i k t hpacking
    obtain ⟨fixed, s₁, hfixed, ha⟩ := run_bind_eq_ok.mp ha
    obtain ⟨array, s₂, harray, ha⟩ := run_bind_eq_ok.mp ha
    obtain ⟨rfl, rfl⟩ := run_pure_eq_ok.mp ha
    have htake := List.forall₂_take k h
    have hdrop := List.forall₂_drop k h
    have hmade := inOrder_makes (Means.forall_makes htake) s fixed s₁ hs hfixed
    have hpack := (implements_packArray hdrop (hmade.precedes.reserved.trans hs) harray).performs
    rw [hmade.precedes.reserved] at hpack
    refine (performs_inOrder htake hs hfixed).bind
      (R := fun first vs μ => vs = first ++ [μ array.1.name]) hmade.precedes
      (s.stable_agreesOn vars) (Operand.stable_values hmade.settled w.this)
      (fun first => (hpack.mono (fun μ h => h.1) fun _ _ h => h).map fun b μ h => by rw [← h]; rfl)
      fun first vs μ hfirst hvs => ?_
    rw [hvs, ← hfirst, List.map_append]
    rfl
  · exact performs_inOrder h hs ha

/-- The value of the receiver, which is a class if it is the name of an import. -/
theorem performs_lowerCall (t : IrType) {target : Lower Value} {act : Act Effect Val Val}
    (htarget : Means w vars r target act)
    (hstatic : ∀ c, sc.staticReceiver? receiver = some c → act = pure (.cls c))
    (h : List.Forall₂ (Means w vars r) values acts) (hs : s.reserved = r) {a : Call × Code}
    (ha : (sc.lowerCall t receiver method arguments target values).run s = .ok (a, s')) :
    a.1.method = method ∧ Performs w s (Vars.AgreesOn s.reserved vars) a.2
      (do let target ← act; return (target, ← sc.passArguments w receiver method arguments acts))
      fun p μ => a.1.target.value w.this μ = p.1 ∧
        a.1.arguments.map (Operand.value w.this μ) = p.2 := by
  unfold lowerCall at ha
  split at ha
  · rename_i c hc
    simp only [pure_bind] at ha
    obtain ⟨b, s₁, hb, ha⟩ := run_bind_eq_ok.mp ha
    obtain ⟨rfl, rfl⟩ := run_pure_eq_ok.mp ha
    rw [hstatic c hc, pure_bind]
    exact ⟨rfl, (sc.performs_lowerArguments receiver method arguments h hs hb).map
      fun vs μ h => ⟨rfl, h⟩⟩
  · simp only [pure_bind] at ha
    obtain ⟨v, s₁, hv, ha⟩ := run_bind_eq_ok.mp ha
    obtain ⟨b, s₂, hb, ha⟩ := run_bind_eq_ok.mp ha
    obtain ⟨rfl, rfl⟩ := run_pure_eq_ok.mp ha
    have hmade := htarget.makes s v s₁ hs hv
    have hrest := sc.performs_lowerArguments receiver method arguments h
      (hmade.precedes.reserved.trans hs) hb
    rw [hmade.precedes.reserved] at hrest
    exact ⟨rfl, (htarget.implements s v s₁ hs hv).performs.both hmade.precedes
      (s.stable_agreesOn vars) (fun c => (hmade.settled _ List.mem_cons_self).stable w.this c)
      hrest⟩

end Calls

/-! ## All expressions -/

theorem eval_of_staticReceiver? {receiver : Node} {c : String}
    (h : sc.staticReceiver? receiver = some c) (d : Ty) :
    (sc.eval w vars d receiver).need = pure (.cls c) := by
  obtain ⟨i, p, k⟩ := receiver
  cases k with
  | varRef name =>
    unfold staticReceiver? at h
    simp only at h
    split at h
    · rename_i path hpath
      cases h
      simp [eval, readName, hpath]
    · cases h
  | _ => cases h

theorem forall₂_lowerEach {ns : List Node}
    (h : ∀ n ∈ ns, ∀ d, Means w vars r (sc.lowerExpr d n) (sc.eval w vars d n).need)
    (ds : List Ty) :
    List.Forall₂ (Means w vars r) (sc.lowerEach ds ns) (sc.evalEach w vars ds ns) := by
  induction ns generalizing ds with
  | nil => exact .nil
  | cons n ns ih =>
    obtain ⟨hn, hns⟩ := List.forall_mem_cons.mp h
    exact .cons (hn _) (ih hns ds.tail)

/-- **The code for an expression does what the expression does, and its operand holds the value.** -/
theorem means_lowerExpr (w : World Effect Val) (vars : Vars) (hr : sc.Reserves r) (n : Node)
    (d : Ty) : Means w vars r (sc.lowerExpr d n) (sc.eval w vars d n).need := by
  induction n using Node.induction generalizing d with
  | step n ih =>
    refine ⟨sc.lowerExpr_makes hr n d, fun s v s' hs h => ?_⟩
    obtain ⟨i, p, k⟩ := n
    cases k with
    | program | importDecl | classDecl | varDecl | methodDecl | param | assign | arrayAssign
    | returning | ifElse | whileLoop | block | exprStmt => cases h
    | intLit value =>
      obtain ⟨rfl, rfl⟩ := run_pure_eq_ok.mp h
      exact implements_operand fun _ _ => rfl
    | boolLit value =>
      obtain ⟨rfl, rfl⟩ := run_pure_eq_ok.mp h
      exact implements_operand fun _ _ => by cases value <;> rfl
    | this =>
      obtain ⟨rfl, rfl⟩ := run_pure_eq_ok.mp h
      exact implements_operand fun _ _ => rfl
    | varRef name =>
      simp only [eval, Act.need_return_some]
      exact (sc.means_lowerName hr name p).implements s v s' hs h
    | paren inner => exact (ih inner List.mem_cons_self d).implements s v s' hs h
    | binary op left right =>
      simp only [eval, Act.need_return_some]
      exact (means_binary op (ih left List.mem_cons_self _)
        (ih right mem_second _)).implements s v s' hs h
    | unary op operand =>
      cases op
      simp only [eval, Act.need_bind, Act.need_pure_some, bind_pure]
      obtain ⟨a, s₁, ha, h⟩ := run_bind_eq_ok.mp h
      exact implements_unary (ih operand List.mem_cons_self _) hs ha
        (fun b μ hb => by rw [Rhs.eval, hb]) h
    | newObject className =>
      simp only [eval, Act.need_bind, Act.need_pure_some]
      obtain ⟨a, s₁, ha, h⟩ := run_bind_eq_ok.mp h
      obtain ⟨rfl, rfl⟩ := run_pure_eq_ok.mp h
      have hmade := made_assignTemp (Made.nil s) ha
      have hnew : Implements w vars s a (w.ask (.newObject className)) :=
        implements_operation (fun _ => rfl) ha
      refine .of_performs ?_ fun dest rhs hlast => ?_
      · have hinit (b : Val) : Performs w s'
            (fun μ => Vars.AgreesOn s.reserved vars μ ∧ a.operand.value w.this μ = b)
            [.call (.construct a.operand)]
            (do let _ ← w.perform (.call b "<init>" []); return b) fun c _ => c = b := by
          refine (Performs.effect fun μ hμ => ?_).map fun _ _ _ => rfl
          rw [Instr.act, Call.effect, Call.construct, hμ.2]
          rfl
        exact hnew.performs.bind hmade.precedes (s.stable_agreesOn vars)
          (fun b => (hmade.settled _ List.mem_cons_self).stable w.this b) hinit
          fun b c μ hb hc => hb.trans hc.symm
      · rw [List.getLast?_concat] at hlast
        cases hlast
    | newArray element size =>
      simp only [eval, Act.need_bind, Act.need_pure_some, bind_pure]
      obtain ⟨a, s₁, ha, h⟩ := run_bind_eq_ok.mp h
      exact implements_unary (ih size List.mem_cons_self _) hs ha
        (fun b μ hb => by rw [Rhs.eval, hb]; rfl) h
    | arrayAccess array index =>
      simp only [eval, Act.need_bind, Act.need_pure_some, bind_pure]
      have harray := ih array List.mem_cons_self .intArray
      have hindex := ih index mem_second .int
      obtain ⟨a, s₁, ha, h⟩ := run_bind_eq_ok.mp h
      obtain ⟨x, s₂, hx, h⟩ := run_bind_eq_ok.mp h
      obtain ⟨b, s₃, hb, h⟩ := run_bind_eq_ok.mp h
      have hmade := made_toVar (harray.makes s a s₁ hs ha) hx
      have hperforms := performs_toVar (harray.implements s a s₁ hs ha).performs
        (s.stable_agreesOn vars) (harray.makes s a s₁ hs ha) hx
      have hs₂ := hmade.precedes.reserved.trans hs
      have hmade' := hmade.append (hindex.makes s₂ b s₃ hs₂ hb)
      have hboth := performs_operands hperforms hmade hindex hs₂ hb
      have himplements := implements_assignTemp (f := fun ai => w.ask (.arrayLoad ai.1 ai.2)) hboth
        hmade'.precedes (stable_operands hmade') (fun ai μ hai => ?_) h
      · simpa using himplements
      · rw [Rhs.eval, hai.2, ← hai.1]
        rfl
    | arrayLength array =>
      simp only [eval, Act.need_bind, Act.need_pure_some, bind_pure]
      have harray := ih array List.mem_cons_self .intArray
      obtain ⟨a, s₁, ha, h⟩ := run_bind_eq_ok.mp h
      obtain ⟨x, s₂, hx, h⟩ := run_bind_eq_ok.mp h
      have hmade := made_toVar (harray.makes s a s₁ hs ha) hx
      have hperforms := performs_toVar (harray.implements s a s₁ hs ha).performs
        (s.stable_agreesOn vars) (harray.makes s a s₁ hs ha) hx
      refine implements_assignTemp hperforms hmade.precedes
        (fun b => (hmade.settled _ List.mem_cons_self).stable w.this b) (fun b μ hb => ?_) h
      rw [Rhs.eval, hb]
      rfl
    | arrayLit elements =>
      simp only [eval, Act.need_return_some]
      obtain ⟨a, s₁, ha, h⟩ := run_bind_eq_ok.mp h
      obtain ⟨rfl, rfl⟩ := run_pure_eq_ok.mp h
      exact implements_packArray (forall₂_lowerEach (fun c hc => ih c hc) _) hs ha
    | call receiver method arguments =>
      have heach := forall₂_lowerEach (fun c hc => ih c (List.mem_cons_of_mem _ hc))
        (sc.argumentDemands receiver method arguments)
      rw [lowerExpr_call] at h
      obtain ⟨⟨c, code⟩, s₁, hc, h⟩ := run_bind_eq_ok.mp h
      have hmade := sc.lowerCall_makes _ receiver method arguments
        (sc.lowerExpr_makes hr receiver _) (Means.forall_makes heach) s (c, code) s₁ hs hc
      obtain ⟨hmethod, hperforms⟩ := sc.performs_lowerCall receiver method arguments _
        (ih receiver List.mem_cons_self .object) (fun _ hc => eval_of_staticReceiver? hc _)
        heach hs hc
      by_cases hvoid : c.returnType = .void
      · simp only [hvoid, if_true] at h
        obtain ⟨_, _, hthrow, -⟩ := run_bind_eq_ok.mp h
        exact absurd hthrow run_throw_ne_ok
      · simp only [hvoid, if_false] at h
        have himplements := implements_assignTemp
          (f := fun p => w.ask (.call p.1 method p.2)) hperforms hmade.precedes (fun p => ?_)
          (fun p μ hp => ?_) h
        · simpa [eval, Act.need_bind, World.ask] using himplements
        · exact ((hmade.settled _ List.mem_cons_self).stable w.this p.1).and
            (Operand.stable_values (fun o ho => hmade.settled o (List.mem_cons_of_mem _ ho))
              w.this p.2)
        · rw [Rhs.eval, Call.effect, hp.1, hp.2, ← hmethod]
          rfl

end Scope

end MiniJava
