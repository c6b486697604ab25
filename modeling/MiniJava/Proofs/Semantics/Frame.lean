import MiniJava.Constant.Propagation
import MiniJava.Proofs.Semantics.Source

/-!
# What a statement leaves alone

A statement that goes on has changed no variable that is not assigned in it (`Scope.exec_frame`). On
the way there are rules for what goes on behind a computed value, behind a statement and behind a
loop.
-/

namespace MiniJava

/-! ## What goes on behind a statement -/

section Flow

variable {β : Type} {x : Act Effect Val β} {t t' : List Effect} {vars vars' : Vars}

/-- A computed value that is gone on with. -/
theorem Act.goOn_eq_next {k : β → List Effect → Flow} (h : x.goOn t k = .next vars' t') :
    ∃ b u, x.run t = (.ok b, u) ∧ k b u = .next vars' t' := by
  unfold goOn at h
  cases hx : x.run t with
  | mk r u =>
    rw [hx] at h
    cases r with
    | ok b => exact ⟨b, u, rfl, h⟩
    | error o => cases h

theorem Flow.andThen_eq_next {f : Flow} {k : Vars → List Effect → Flow}
    (h : f.andThen k = .next vars' t') : ∃ vars t, f = .next vars t ∧ k vars t = .next vars' t' := by
  cases f with
  | next vars t => exact ⟨vars, t, rfl, h⟩
  | finished o t => cases h
  | outOfFuel t => cases h

variable {test test' : Vars → Act Effect Val Bool} {body body' : Vars → List Effect → Flow}
  {I : Vars → Prop}

/-- What the body of a loop keeps, the loop keeps. -/
theorem loop_next (hkeep : ∀ vars t vars' t', I vars → body vars t = .next vars' t' → I vars')
    {fuel : Nat} (hI : I vars) (h : loop test body fuel vars t = .next vars' t') : I vars' := by
  induction fuel generalizing vars t with
  | zero => cases h
  | succ fuel ih =>
    unfold loop at h
    obtain ⟨b, u, -, h⟩ := Act.goOn_eq_next h
    cases b with
    | true =>
      obtain ⟨vars₁, t₁, hbody, h⟩ := Flow.andThen_eq_next h
      exact ih (hkeep vars u vars₁ t₁ hI hbody) h
    | false =>
      cases h
      exact hI

/-- Loops that test and do the same where an invariant holds, which the body keeps. -/
theorem loop_congr (htest : ∀ vars, I vars → test' vars = test vars)
    (hbody : ∀ vars t, I vars → body' vars t = body vars t)
    (hkeep : ∀ vars t vars' t', I vars → body vars t = .next vars' t' → I vars')
    (fuel : Nat) (hI : I vars) : loop test' body' fuel vars t = loop test body fuel vars t := by
  induction fuel generalizing vars t with
  | zero => rfl
  | succ fuel ih =>
    unfold loop
    rw [htest vars hI]
    congr 1
    funext b u
    cases b with
    | false => rfl
    | true =>
      simp only [if_true]
      rw [hbody vars u hI]
      cases hflow : body vars u with
      | next vars' t' => exact ih (hkeep vars u vars' t' hI hflow)
      | finished o t' => rfl
      | outOfFuel t' => rfl

end Flow

/-! ## The variables that a statement leaves alone -/

namespace Node

theorem mem_assignedNames_of_mem_children {n c : Node} (hc : c ∈ n.children) {x : String}
    (hx : x ∈ c.assignedNames) : x ∈ n.assignedNames := by
  obtain ⟨m, hm, hmx⟩ := List.mem_filterMap.mp hx
  refine List.mem_filterMap.mpr ⟨m, ?_, hmx⟩
  rw [preorder_eq]
  exact List.mem_cons_of_mem n (List.mem_flatMap.mpr ⟨c, hc, hm⟩)

theorem target_mem_assignedNames (i : Nat) (p : Position) (target : String) (value : Node) :
    target ∈ assignedNames ⟨i, p, .assign target value⟩ := by
  refine List.mem_filterMap.mpr ⟨⟨i, p, .assign target value⟩, ?_, rfl⟩
  rw [preorder_eq]
  exact List.mem_cons_self

end Node

namespace Scope

variable {sc : Scope} {w : World Effect Val} {fuel : Nat} {vars vars' : Vars}
  {t t' : List Effect}

/-- An assignment sets a variable of the method, or no variable at all. -/
theorem writeName_eq_ok {name : String} {v : Val}
    (h : (sc.writeName w name v vars).run t = (.ok vars', t')) :
    (∃ b, sc.lookup? name = some b ∧ b.isMethodVariable = true ∧ vars' = vars.set name v) ∨
      (∃ ty, sc.lookup? name = some (.field ty)) ∧ vars' = vars := by
  unfold writeName at h
  split at h
  · cases h
    exact .inl ⟨_, ‹_›, rfl, rfl⟩
  · cases h
    exact .inl ⟨_, ‹_›, rfl, rfl⟩
  · rename_i ty hlookup
    refine .inr ⟨⟨ty, hlookup⟩, ?_⟩
    rw [Act.run_bind] at h
    split at h <;> cases h
    rfl
  · cases h
  · cases h

/-- An assignment that goes on has computed a value and given it to the target. -/
theorem exec_assign_eq_next {i : Nat} {p : Position} {target : String} {value : Node}
    (h : sc.exec w fuel ⟨i, p, .assign target value⟩ vars t = .next vars' t') :
    ∃ v u, (sc.eval w vars (sc.targetDemand target) value).need.run t = (.ok v, u) ∧
      (sc.writeName w target v vars).run u = (.ok vars', t') := by
  unfold exec at h
  obtain ⟨b, u, hrun, hb⟩ := Act.goOn_eq_next h
  cases hb
  rw [Act.run_bind] at hrun
  split at hrun
  · rename_i v u' hv
    exact ⟨v, u', hv, hrun⟩
  · cases hrun

/-- **A statement leaves the variables alone that are not assigned in it.** -/
theorem exec_frame {n : Node} (h : sc.exec w fuel n vars t = .next vars' t') {x : String}
    (hx : x ∉ n.assignedNames) : vars' x = vars x := by
  induction n using Node.induction generalizing vars vars' t t' with
  | step n ih =>
    have ih {c : Node} (hc : c ∈ n.children) {vars vars' t t'}
        (h : sc.exec w fuel c vars t = .next vars' t') : vars' x = vars x :=
      ih c hc h fun hmem => hx (Node.mem_assignedNames_of_mem_children hc hmem)
    obtain ⟨i, p, k⟩ := n
    cases k with
    | assign target value =>
      obtain ⟨v, u, -, hwrite⟩ := exec_assign_eq_next h
      have hne : x ≠ target := by
        rintro rfl
        exact hx (Node.target_mem_assignedNames i p x value)
      rcases writeName_eq_ok hwrite with ⟨b, -, -, rfl⟩ | ⟨-, rfl⟩
      · exact vars.set_of_ne v hne
      · rfl
    | arrayAssign target index value =>
      unfold exec at h
      obtain ⟨b, u, -, hb⟩ := Act.goOn_eq_next h
      cases hb
      rfl
    | returning value =>
      cases value with
      | none => cases h
      | some value =>
        unfold exec at h
        obtain ⟨b, u, -, hb⟩ := Act.goOn_eq_next h
        cases hb
    | ifElse c thenBranch elseBranch =>
      cases elseBranch with
      | none =>
        unfold exec at h
        obtain ⟨b, u, -, hb⟩ := Act.goOn_eq_next h
        cases b with
        | true => exact ih mem_second hb
        | false =>
          cases hb
          rfl
      | some elseBranch =>
        unfold exec at h
        obtain ⟨b, u, -, hb⟩ := Act.goOn_eq_next h
        cases b with
        | true => exact ih mem_second hb
        | false =>
          exact ih mem_third hb
    | whileLoop c body =>
      unfold exec at h
      refine loop_next (I := fun vars' => vars' x = vars x) ?_ rfl h
      intro vars₁ t₁ vars₂ t₂ h₁ hbody
      exact (ih mem_second hbody).trans h₁
    | block statements =>
      unfold exec at h
      have hall (ns : List Node) (hns : ∀ c ∈ ns, c ∈ statements) {vars t}
          (h : sc.execAll w fuel ns vars t = .next vars' t') : vars' x = vars x := by
        induction ns generalizing vars t with
        | nil =>
          cases h
          rfl
        | cons n ns ih' =>
          unfold execAll at h
          obtain ⟨vars₁, t₁, hn, h⟩ := Flow.andThen_eq_next h
          exact (ih' (fun c hc => hns c (List.mem_cons_of_mem n hc)) h).trans
            (ih (hns n List.mem_cons_self) hn)
      exact hall statements (fun _ h => h) h
    | exprStmt e =>
      unfold exec at h
      obtain ⟨b, u, -, hb⟩ := Act.goOn_eq_next h
      cases hb
      rfl
    | _ => cases h

end Scope

end MiniJava
