import MiniJava.Proofs.Accepted
import MiniJava.Proofs.Optimize.Folding
import MiniJava.Proofs.Semantics.Frame

/-!
# Propagation is harmless

What a pass of propagation knows is true in every run that comes to the place: `Known.Holds` says so
of the values of the variables, and `Known.Fits` says that each known variable is a variable of the
method whose type is that of its constant. An expression whose known variables are replaced is
therefore alike, as long as the knowledge holds (`Node.alike_substitute`).

`Propagated` is what the pass guarantees for a statement: it runs the same where the knowledge in
front of it holds, and the knowledge behind it holds where the run goes on. A loop needs in addition
that a statement leaves alone what it does not assign (`Scope.exec_frame`).

That a constant fits its variable is a matter of types. The checks see to it that an assigned
constant has the type of its target, and the passes of the optimizer keep it so
(`Node.AssignsFit`).
-/

namespace MiniJava

/-! ## What is known -/

namespace Known

/-- The variables have the values that are known. -/
def Holds (k : Known) (vars : Vars) : Prop := ∀ x c, k.get? x = some c → vars x = c.toVal

/-- The known variables are tracked, and have the types of their constants. -/
def Fits (k : Known) (sc : Scope) (tracked : List String) : Prop :=
  ∀ x c, k.get? x = some c → x ∈ tracked ∧ sc.variableType? x = some c.type

variable {k l : Known} {sc : Scope} {tracked : List String} {vars : Vars} {x : String}

/-- Nothing is known that was not known before. -/
def Extends (k l : Known) : Prop := ∀ x c, l.get? x = some c → k.get? x = some c

theorem Extends.holds (h : k.Extends l) (hk : k.Holds vars) : l.Holds vars :=
  fun x c hx => hk x c (h x c hx)

theorem Extends.fits (h : k.Extends l) (hk : k.Fits sc tracked) : l.Fits sc tracked :=
  fun x c hx => hk x c (h x c hx)

theorem extends_eraseAll (k : Known) (xs : List String) : k.Extends (k.eraseAll xs) := by
  intro x c hx
  rw [get?_eraseAll] at hx
  split at hx
  · cases hx
  · exact hx

theorem extends_erase (k : Known) (y : String) : k.Extends (k.erase y) := by
  intro x c hx
  rw [get?_erase] at hx
  split at hx
  · cases hx
  · exact hx

theorem extends_meet_left (k l : Known) : k.Extends (k.meet l) := by
  intro x c hx
  rw [get?_meet] at hx
  split at hx
  · exact hx
  · cases hx

theorem extends_meet_right (k l : Known) : l.Extends (k.meet l) := by
  intro x c hx
  rw [get?_meet] at hx
  split at hx
  · rename_i heq
    rw [← heq]
    exact hx
  · cases hx

theorem holds_empty (vars : Vars) : Holds {} vars := fun _ _ h => nomatch h

theorem fits_empty (sc : Scope) (tracked : List String) : Fits {} sc tracked :=
  fun _ _ h => nomatch h

/-- What is known of other variables still holds. -/
theorem Holds.erase_set (h : k.Holds vars) (y : String) (v : Val) :
    (k.erase y).Holds (vars.set y v) := by
  intro x c hx
  rw [get?_erase] at hx
  split at hx
  · cases hx
  · rename_i hne
    rw [vars.set_of_ne v hne]
    exact h x c hx

theorem Holds.insert_set (h : k.Holds vars) (y : String) (c : Constant) :
    (k.insert y c).Holds (vars.set y c.toVal) := by
  intro x c' hx
  rw [get?_insert] at hx
  split at hx
  · rename_i heq
    cases hx
    rw [heq, vars.set_self]
  · rename_i hne
    rw [vars.set_of_ne _ hne]
    exact h x c' hx

theorem Fits.insert (h : k.Fits sc tracked) {y : String} {c : Constant} (hy : y ∈ tracked)
    (htype : sc.variableType? y = some c.type) : (k.insert y c).Fits sc tracked := by
  intro x c' hx
  rw [get?_insert] at hx
  split at hx
  · rename_i heq
    cases hx
    rw [heq]
    exact ⟨hy, htype⟩
  · exact h x c' hx

end Known

/-! ## Constants and the variables that they are assigned to -/

/-- An assignment of a value that has the type of a constant is to a variable of that type. -/
def Node.AssignFits (sc : Scope) (n : Node) : Prop :=
  ∀ target value, n.kind = .assign target value → ∀ c : Constant,
    sc.typeOf? (sc.targetDemand target) value = some c.type →
      ∀ ty, sc.variableType? target = some ty → ty = c.type

/-- All assignments of a tree are so. -/
inductive Node.AssignsFit (sc : Scope) : Node → Prop where
  | intro {n : Node} (here : n.AssignFits sc) (below : ∀ c ∈ n.children, AssignsFit sc c) :
    AssignsFit sc n

namespace Node

variable {sc : Scope} {n : Node}

namespace AssignsFit

theorem here (h : n.AssignsFit sc) : n.AssignFits sc := by
  cases h
  assumption

theorem child (h : n.AssignsFit sc) {c : Node} (hc : c ∈ n.children) : c.AssignsFit sc := by
  cases h with
  | intro _ below => exact below c hc

theorem literal {c : Constant} (h : c.HoldsAt n) : n.AssignsFit sc := by
  obtain ⟨i, p, k⟩ := n
  cases k with
  | intLit | boolLit => exact .intro (fun _ _ h => nomatch h) fun _ h => nomatch h
  | _ => cases h

/-- The assignments of a tree whose children are replaced by ones of the same types. -/
theorem map {f : Node → Node} (h : n.AssignsFit sc)
    (hf : ∀ c ∈ n.children, (f c).AssignsFit sc ∧ ∀ d, sc.typeOf? d (f c) = sc.typeOf? d c) :
    (n.mapChildren f).AssignsFit sc := by
  refine .intro ?_ fun c hc => ?_
  · intro target value hkind c htype ty hty
    obtain ⟨i, p, k⟩ := n
    cases k with
    | assign target' value' =>
      simp only [mapChildren, Kind.map, Kind.assign.injEq] at hkind
      obtain ⟨rfl, rfl⟩ := hkind
      rw [(hf value' List.mem_cons_self).2] at htype
      exact h.here _ _ rfl c htype ty hty
    | _ => cases hkind
  · simp only [mapChildren, children, Kind.children_map] at hc
    obtain ⟨c', hc', rfl⟩ := List.mem_map.mp hc
    exact (hf c' hc').1

/-- Folding keeps the types, so the assignments still fit. -/
theorem fold (h : n.AssignsFit sc) : (foldConstants n).value.AssignsFit sc := by
  induction n using Node.induction with
  | step n ih =>
    have hmap : (n.withRewritten foldHere).AssignsFit sc :=
      h.map fun c hc => ⟨ih c hc (h.child hc), (alike_and_sameRun_fold sc c).1.type⟩
    unfold foldConstants
    rw [value_rewrite]
    unfold foldHere
    split
    · exact literal (Constant.HoldsAt.become _ _)
    · exact hmap

end AssignsFit

end Node

/-- A variable takes a constant only if it has the type of the constant. -/
theorem SymbolTable.eq_type_of_assignable {t : SymbolTable} {target : Ty} {c : Constant}
    (h : t.assignable target c.type = true) : target = c.type := by
  unfold assignable at h
  rcases Bool.or_eq_true _ _ ▸ h with h | h
  · exact of_decide_eq_true h
  · have hprimitive : c.type.isPrimitiveName = true := by cases c <;> rfl
    unfold trusts at h
    rw [hprimitive, Bool.or_true, if_pos rfl] at h
    split at h <;> cases h

/-- The assignments of a program that passes the checks fit. -/
theorem Scope.Approves.assignsFit {sc : Scope} {n : Node} (h : sc.Approves n) :
    n.AssignsFit sc := by
  induction n using Node.induction with
  | step n ih =>
    refine .intro ?_ fun c hc => ih c hc (h.child hc)
    intro target value hkind c htype ty hty
    have hcheck := h.typesHere
    unfold checkTypesAt at hcheck
    simp only [hkind, hty, htype] at hcheck
    split at hcheck
    · exact SymbolTable.eq_type_of_assignable ‹_›
    · cases hcheck

/-- The tracked names mean variables of the method. -/
def Scope.Tracks (sc : Scope) (tracked : List String) : Prop :=
  ∀ x ∈ tracked, ∃ b, sc.lookup? x = some b ∧ b.isMethodVariable = true

/-! ## Expressions -/

/-- Expressions in whose parts names are replaced. -/
def Label.isCompound : Label → Bool
  | binary | unary | newArray | arrayLit | arrayAccess | arrayLength | call | paren => true
  | _ => false

namespace Node

variable {sc : Scope} {tracked : List String} {k : Known} {n : Node}

theorem value_substituteAll (k : Known) (ns : List Node) :
    (substituteAll k ns).value = ns.map fun n => (n.substitute k).value := by
  induction ns with
  | nil => rfl
  | cons n ns ih =>
    rw [List.map_cons, ← ih]
    rfl

theorem count_substituteAll (k : Known) (ns : List Node) :
    (substituteAll k ns).count = (ns.map fun n => (n.substitute k).count).sum := by
  induction ns with
  | nil => rfl
  | cons n ns ih =>
    rw [List.map_cons, List.sum_cons, ← ih]
    rfl

theorem substitute_of_compound (k : Known) {n : Node} (h : n.label.isCompound = true) :
    (n.substitute k).value = n.mapChildren (fun c => (c.substitute k).value) ∧
      (n.substitute k).count = (n.children.map fun c => (c.substitute k).count).sum := by
  obtain ⟨i, p, kind⟩ := n
  cases kind with
  | binary | unary | newArray | arrayAccess | arrayLength | paren =>
    refine ⟨rfl, ?_⟩
    simp [substitute, children, Kind.children, -bind_pure_comp]
  | arrayLit | call =>
    refine ⟨?_, ?_⟩
    · simp only [substitute, mapChildren, Kind.map, Counted.value_bind, value_substituteAll]
      rfl
    · simp [substitute, children, Kind.children, count_substituteAll, -bind_pure_comp]
  | _ => cases h

theorem substitute_of_not_compound (k : Known) {n : Node} (h : n.label.isCompound = false)
    (hname : n.label ≠ .varRef) : n.substitute k = pure n := by
  obtain ⟨i, p, kind⟩ := n
  cases kind with
  | varRef => exact absurd rfl hname
  | binary | unary | newArray | arrayLit | arrayAccess | arrayLength | call | paren => cases h
  | _ => rfl

/-- Substitution leaves a node alone or replaces its children, unless the node is a name. -/
theorem substitute_cases (k : Known) (n : Node) (h : n.label ≠ .varRef) :
    n.substitute k = pure n ∨
      (n.substitute k).value = n.mapChildren (fun c => (c.substitute k).value) ∧
        (n.substitute k).count = (n.children.map fun c => (c.substitute k).count).sum := by
  cases hcompound : n.label.isCompound with
  | false => exact .inl (substitute_of_not_compound k hcompound h)
  | true => exact .inr (substitute_of_compound k hcompound)

/-- **An expression whose known variables are replaced is alike** where the knowledge holds, and its
assignments fit as before. -/
theorem alike_substitute (htracked : sc.Tracks tracked) (hk : k.Fits sc tracked) (n : Node) :
    sc.Alike k.Holds n (n.substitute k).value := by
  induction n using Node.induction with
  | step n ih =>
    by_cases hlabel : n.label = .varRef
    · obtain ⟨i, p, kind⟩ := n
      cases kind with
      | varRef name =>
        unfold substitute
        cases hc : k.get? name with
        | none => exact .refl sc _ _
        | some c =>
          obtain ⟨hmem, htype⟩ := hk name c hc
          obtain ⟨b, hb, hvariable⟩ := htracked name hmem
          refine (Constant.HoldsAt.become ⟨i, p, .varRef name⟩ c).alike sc rfl (fun _ => htype)
            fun w vars d hvars => ?_
          have hread : sc.readName w vars name = pure (vars name) := by
            unfold Scope.readName
            rw [hb]
            cases b with
            | param | «local» => rfl
            | imported | field => cases hvariable
          simp only [Scope.eval]
          rw [hread, hvars name c hc]
          rfl
      | _ => cases hlabel
    · rcases substitute_cases k n hlabel with h | ⟨h, -⟩ <;> rw [h]
      · exact .refl sc _ n
      · exact .map ih

theorem AssignsFit.substitute (htracked : sc.Tracks tracked) (hk : k.Fits sc tracked)
    (h : n.AssignsFit sc) : (n.substitute k).value.AssignsFit sc := by
  induction n using Node.induction with
  | step n ih =>
    by_cases hlabel : n.label = .varRef
    · obtain ⟨i, p, kind⟩ := n
      cases kind with
      | varRef name =>
        unfold Node.substitute
        cases hc : k.get? name with
        | none => exact h
        | some c => exact .literal (Constant.HoldsAt.become ⟨i, p, .varRef name⟩ c)
      | _ => cases hlabel
    · rcases substitute_cases k n hlabel with h' | ⟨h', -⟩ <;> rw [h']
      · exact h
      · exact h.map fun c hc => ⟨ih c hc (h.child hc), (alike_substitute htracked hk c).type⟩

end Node

/-! ## Statements -/

/-- What propagation guarantees for a statement: `k` is known in front of it, and the statement with
what is known behind it is returned. -/
structure Propagated (sc : Scope) (tracked : List String) (k : Known) (n : Node)
    (r : Node × Known) : Prop where
  fits : r.2.Fits sc tracked
  assignsFit : r.1.AssignsFit sc
  run : ∀ w fuel vars t, k.Holds vars → sc.exec w fuel r.1 vars t = sc.exec w fuel n vars t
  holds : ∀ w fuel vars t vars' t', k.Holds vars →
    sc.exec w fuel n vars t = .next vars' t' → r.2.Holds vars'

namespace Propagated

variable {sc : Scope} {tracked : List String} {k : Known} {i : Nat} {p : Position}

theorem assign (htracked : sc.Tracks tracked) (hk : k.Fits sc tracked) {target : String}
    {value : Node} (h : Node.AssignsFit sc ⟨i, p, .assign target value⟩) :
    Propagated sc tracked k ⟨i, p, .assign target value⟩
      (Node.propagate tracked k ⟨i, p, .assign target value⟩).value := by
  have halike := Node.alike_substitute htracked hk value
  refine ⟨?_, ?_, ?_, ?_⟩
  · change (k.assign tracked target (value.substitute k).value.literal?).Fits sc tracked
    unfold Known.assign
    by_cases hmem : tracked.contains target = true
    · rw [if_pos hmem]
      cases hc : (value.substitute k).value.literal? with
      | none => exact (k.extends_erase target).fits hk
      | some c =>
        have hmem := List.contains_iff_mem.mp hmem
        obtain ⟨b, hb, -⟩ := htracked target hmem
        have htarget : sc.variableType? target = some b.type := by
          unfold Scope.variableType?
          rw [hb]
          rfl
        have hvalue := Constant.HoldsAt.typeOf? sc hc (sc.targetDemand target)
        rw [halike.type] at hvalue
        refine hk.insert hmem ?_
        rw [htarget, h.here target value rfl c hvalue b.type htarget]
    · rw [if_neg hmem]
      exact hk
  · exact h.map fun c hc =>
      ⟨(h.child hc).substitute htracked hk, (Node.alike_substitute htracked hk c).type⟩
  · intro w fuel vars t hvars
    change sc.exec w fuel ⟨i, p, .assign target (value.substitute k).value⟩ vars t = _
    simp only [Scope.exec]
    rw [halike.value w vars _ hvars]
  · intro w fuel vars t vars' t' hvars hexec
    change (k.assign tracked target (value.substitute k).value.literal?).Holds vars'
    obtain ⟨v, u, hv, hwrite⟩ := Scope.exec_assign_eq_next hexec
    unfold Known.assign
    by_cases hmem : tracked.contains target = true
    · rw [if_pos hmem]
      obtain ⟨b, hb, hvariable⟩ := htracked target (List.contains_iff_mem.mp hmem)
      rcases Scope.writeName_eq_ok hwrite with ⟨-, -, -, rfl⟩ | ⟨⟨ty, hfield⟩, -⟩
      · cases hc : (value.substitute k).value.literal? with
        | none => exact hvars.erase_set target v
        | some c =>
          rw [← halike.value w vars _ hvars, Constant.HoldsAt.eval sc hc] at hv
          cases hv
          exact hvars.insert_set target c
      · rw [hb] at hfield
        cases hfield
        cases hvariable
    · rw [if_neg hmem]
      intro x c hx
      have hne : x ≠ target := by
        rintro rfl
        exact hmem (List.contains_iff_mem.mpr (hk x c hx).1)
      rcases Scope.writeName_eq_ok hwrite with ⟨-, -, -, rfl⟩ | ⟨-, rfl⟩
      · rw [vars.set_of_ne v hne]
        exact hvars x c hx
      · exact hvars x c hx

/-- A statement that assigns no variable and has only expressions as its parts. -/
theorem of_exprs (htracked : sc.Tracks tracked) (hk : k.Fits sc tracked) {n : Node}
    (h : n.AssignsFit sc)
    (hrun : ∀ w fuel vars t, (∀ c ∈ n.children, ∀ d,
        sc.eval w vars d (c.substitute k).value = sc.eval w vars d c) →
      sc.exec w fuel (n.mapChildren fun c => (c.substitute k).value) vars t =
        sc.exec w fuel n vars t)
    (hkeep : ∀ w fuel vars t vars' t', sc.exec w fuel n vars t = .next vars' t' → vars' = vars) :
    Propagated sc tracked k n (n.mapChildren fun c => (c.substitute k).value, k) := by
  refine ⟨hk, ?_, ?_, ?_⟩
  · exact h.map fun c hc =>
      ⟨(h.child hc).substitute htracked hk, (Node.alike_substitute htracked hk c).type⟩
  · intro w fuel vars t hvars
    exact hrun w fuel vars t fun c _ d =>
      (Node.alike_substitute htracked hk c).value w vars d hvars
  · intro w fuel vars t vars' t' hvars hexec
    rw [hkeep w fuel vars t vars' t' hexec]
    exact hvars

theorem evalCondition_substitute (htracked : sc.Tracks tracked) (hk : k.Fits sc tracked)
    (w : World Effect Val) (c : Node) {vars : Vars} (hvars : k.Holds vars) :
    sc.evalCondition w (c.substitute k).value vars = sc.evalCondition w c vars := by
  unfold Scope.evalCondition
  rw [(Node.alike_substitute htracked hk c).value w vars _ hvars]

/-- Behind an `if` that is left by one of two ways, only what is known on both is known. -/
theorem ifElse_none (htracked : sc.Tracks tracked) (hk : k.Fits sc tracked) {c thenBranch : Node}
    (h : Node.AssignsFit sc ⟨i, p, .ifElse c thenBranch none⟩)
    (hthen : Propagated sc tracked k thenBranch (thenBranch.propagate tracked k).value) :
    Propagated sc tracked k ⟨i, p, .ifElse c thenBranch none⟩
      (Node.propagate tracked k ⟨i, p, .ifElse c thenBranch none⟩).value := by
  refine ⟨?_, ?_, ?_, ?_⟩
  · exact (Known.extends_meet_right _ k).fits hk
  · refine .intro (fun _ _ h => nomatch h) (List.forall_mem_cons.mpr ⟨?_, ?_⟩)
    · exact (h.child List.mem_cons_self).substitute htracked hk
    · exact List.forall_mem_singleton.mpr hthen.assignsFit
  · intro w fuel vars t hvars
    simp only [Node.propagate, Counted.value_bind, Counted.value_pure, Scope.exec]
    rw [evalCondition_substitute htracked hk w c hvars]
    congr 1
    funext b u
    rw [hthen.run w fuel vars u hvars]
  · intro w fuel vars t vars' t' hvars hexec
    unfold Scope.exec at hexec
    obtain ⟨b, u, -, hb⟩ := Act.goOn_eq_next hexec
    cases b with
    | true => exact (Known.extends_meet_left _ k).holds (hthen.holds w fuel vars u _ _ hvars hb)
    | false =>
      cases hb
      exact (Known.extends_meet_right _ k).holds hvars

theorem ifElse_some (htracked : sc.Tracks tracked) (hk : k.Fits sc tracked)
    {c thenBranch elseBranch : Node}
    (h : Node.AssignsFit sc ⟨i, p, .ifElse c thenBranch (some elseBranch)⟩)
    (hthen : Propagated sc tracked k thenBranch (thenBranch.propagate tracked k).value)
    (helse : Propagated sc tracked k elseBranch (elseBranch.propagate tracked k).value) :
    Propagated sc tracked k ⟨i, p, .ifElse c thenBranch (some elseBranch)⟩
      (Node.propagate tracked k ⟨i, p, .ifElse c thenBranch (some elseBranch)⟩).value := by
  refine ⟨?_, ?_, ?_, ?_⟩
  · exact (Known.extends_meet_left _ _).fits hthen.fits
  · refine .intro (fun _ _ h => nomatch h) (List.forall_mem_cons.mpr ⟨?_, ?_⟩)
    · exact (h.child List.mem_cons_self).substitute htracked hk
    · exact List.forall_mem_cons.mpr
        ⟨hthen.assignsFit, List.forall_mem_singleton.mpr helse.assignsFit⟩
  · intro w fuel vars t hvars
    simp only [Node.propagate, Counted.value_bind, Counted.value_pure, Scope.exec]
    rw [evalCondition_substitute htracked hk w c hvars]
    congr 1
    funext b u
    rw [hthen.run w fuel vars u hvars, helse.run w fuel vars u hvars]
  · intro w fuel vars t vars' t' hvars hexec
    unfold Scope.exec at hexec
    obtain ⟨b, u, -, hb⟩ := Act.goOn_eq_next hexec
    cases b with
    | true => exact (Known.extends_meet_left _ _).holds (hthen.holds w fuel vars u _ _ hvars hb)
    | false => exact (Known.extends_meet_right _ _).holds (helse.holds w fuel vars u _ _ hvars hb)

/-- What is known in front of a loop and not assigned in it is known whenever the condition is
tested. -/
theorem whileLoop (htracked : sc.Tracks tracked) (hk : k.Fits sc tracked) {c body : Node}
    (h : Node.AssignsFit sc ⟨i, p, .whileLoop c body⟩)
    (hbody : Propagated sc tracked (k.eraseAll body.assignedNames) body
      (body.propagate tracked (k.eraseAll body.assignedNames)).value) :
    Propagated sc tracked k ⟨i, p, .whileLoop c body⟩
      (Node.propagate tracked k ⟨i, p, .whileLoop c body⟩).value := by
  have hextends := k.extends_eraseAll body.assignedNames
  have hk' := hextends.fits hk
  have hkeep (w : World Effect Val) (fuel : Nat) (vars : Vars) (t : List Effect) (vars' : Vars)
      (t' : List Effect) (hvars : (k.eraseAll body.assignedNames).Holds vars)
      (hexec : sc.exec w fuel body vars t = .next vars' t') :
      (k.eraseAll body.assignedNames).Holds vars' := by
    intro x c hx
    have hne : x ∉ body.assignedNames := by
      intro hmem
      rw [Known.get?_eraseAll, if_pos hmem] at hx
      cases hx
    rw [Scope.exec_frame hexec hne]
    exact hvars x c hx
  refine ⟨hk', ?_, ?_, ?_⟩
  · refine .intro (fun _ _ h => nomatch h) (List.forall_mem_cons.mpr ⟨?_, ?_⟩)
    · exact (h.child List.mem_cons_self).substitute htracked hk'
    · exact List.forall_mem_singleton.mpr hbody.assignsFit
  · intro w fuel vars t hvars
    simp only [Node.propagate, Counted.value_bind, Counted.value_pure, Scope.exec]
    exact loop_congr (fun vars hI => evalCondition_substitute htracked hk' w c hI)
      (fun vars t hI => hbody.run w fuel vars t hI) (hkeep w fuel) fuel (hextends.holds hvars)
  · intro w fuel vars t vars' t' hvars hexec
    unfold Scope.exec at hexec
    exact loop_next (hkeep w fuel) (hextends.holds hvars) hexec

theorem block (hk : k.Fits sc tracked) {ns : List Node}
    (h : ∀ c ∈ ns, c.AssignsFit sc)
    (hns : ∀ c ∈ ns, ∀ k : Known, k.Fits sc tracked →
      Propagated sc tracked k c (c.propagate tracked k).value) :
    Propagated sc tracked k ⟨i, p, .block ns⟩
      (Node.propagate tracked k ⟨i, p, .block ns⟩).value := by
  induction ns generalizing k with
  | nil =>
    refine ⟨hk, .intro (fun _ _ h => nomatch h) (fun _ h => nomatch h), fun _ _ _ _ _ => rfl, ?_⟩
    rintro w fuel vars t _ _ hvars ⟨⟩
    exact hvars
  | cons n ns ih =>
    obtain ⟨hn, hns'⟩ := List.forall_mem_cons.mp hns
    have hn := hn k hk
    have hrest := ih hn.fits (fun c hc => h c (List.mem_cons_of_mem n hc)) hns'
    refine ⟨hrest.fits, ?_, ?_, ?_⟩
    · refine .intro (fun _ _ h => nomatch h) (List.forall_mem_cons.mpr ⟨hn.assignsFit, ?_⟩)
      exact fun c hc => hrest.assignsFit.child hc
    · intro w fuel vars t hvars
      change Scope.execAll sc w fuel (_ :: _) vars t = Scope.execAll sc w fuel (n :: ns) vars t
      simp only [Scope.execAll]
      rw [hn.run w fuel vars t hvars]
      cases hflow : sc.exec w fuel n vars t with
      | next vars' t' => exact hrest.run w fuel vars' t' (hn.holds w fuel _ _ _ _ hvars hflow)
      | finished o t' => rfl
      | outOfFuel t' => rfl
    · intro w fuel vars t vars' t' hvars hexec
      change Scope.execAll sc w fuel (n :: ns) vars t = .next vars' t' at hexec
      unfold Scope.execAll at hexec
      obtain ⟨vars₁, t₁, hflow, hexec⟩ := Flow.andThen_eq_next hexec
      exact hrest.holds w fuel vars₁ t₁ _ _ (hn.holds w fuel _ _ _ _ hvars hflow) hexec

end Propagated

/-- **Propagation through a statement is harmless.** -/
theorem Node.propagated {sc : Scope} {tracked : List String} (htracked : sc.Tracks tracked)
    {n : Node} (h : n.AssignsFit sc) {k : Known} (hk : k.Fits sc tracked) :
    Propagated sc tracked k n (n.propagate tracked k).value := by
  induction n using Node.induction generalizing k with
  | step n ih =>
    have ih {c : Node} (hc : c ∈ n.children) {k : Known} (hk : k.Fits sc tracked) :=
      ih c hc (h.child hc) hk
    obtain ⟨i, p, kind⟩ := n
    cases kind with
    | assign target value => exact .assign htracked hk h
    | arrayAssign target index value =>
      refine .of_exprs htracked hk h (fun w fuel vars t hc => ?_) fun w fuel vars t vars' t' he => ?_
      · simp only [mapChildren, Kind.map, Scope.exec]
        rw [hc index List.mem_cons_self, hc value mem_second]
      · unfold Scope.exec at he
        obtain ⟨b, u, -, hb⟩ := Act.goOn_eq_next he
        cases hb
        rfl
    | returning value =>
      cases value with
      | none => exact ⟨hk, h, fun _ _ _ _ _ => rfl, by rintro _ _ _ _ _ _ _ ⟨⟩⟩
      | some value =>
        refine .of_exprs htracked hk h (fun w fuel vars t hc => ?_)
          fun w fuel vars t vars' t' he => ?_
        · simp only [mapChildren, Kind.map, Option.map_some, Scope.exec]
          rw [hc value List.mem_cons_self]
        · unfold Scope.exec at he
          obtain ⟨b, u, -, hb⟩ := Act.goOn_eq_next he
          cases hb
    | exprStmt e =>
      refine .of_exprs htracked hk h (fun w fuel vars t hc => ?_) fun w fuel vars t vars' t' he => ?_
      · simp only [mapChildren, Kind.map, Scope.exec]
        rw [hc e List.mem_cons_self]
      · unfold Scope.exec at he
        obtain ⟨b, u, -, hb⟩ := Act.goOn_eq_next he
        cases hb
        rfl
    | ifElse c thenBranch elseBranch =>
      have hthen := ih (c := thenBranch) mem_second hk
      cases elseBranch with
      | none => exact .ifElse_none htracked hk h hthen
      | some elseBranch =>
        refine .ifElse_some htracked hk h hthen (ih (c := elseBranch) ?_ hk)
        exact mem_third
    | whileLoop c body =>
      refine .whileLoop htracked hk h (ih (c := body) ?_ ?_)
      · exact mem_second
      · exact (k.extends_eraseAll _).fits hk
    | block statements => exact .block hk (fun c hc => h.child hc) fun c hc k hk => ih hc hk
    | _ => exact ⟨hk, h, fun _ _ _ _ _ => rfl, by rintro _ _ _ _ _ _ _ ⟨⟩⟩

end MiniJava
