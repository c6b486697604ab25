import Mathlib.Data.List.Infix
import Mathlib.Data.List.Nodup
import Mathlib.Logic.Relation

/-!
# Paths through code

What an instruction does with values is left out here: it only passes control on, to the instruction
behind it or to a label, and where it may do both a path takes either. A place in some code is what
stands there from the next instruction on, so it is a suffix of the code and the end is the empty
one.

* A part is closed if its jumps lead to its own labels. Then a path leaves it only at its end
  (`ControlFlow.Closed.leads_append`).
* A part confines control if a path that enters it at its front stays inside. This is how code that
  always returns looks: the rules are those for `return`, for what stands in front of it and behind
  it, and for two cases (`confines_fork`).
-/

namespace MiniJava

/-- How instructions pass control on. -/
structure ControlFlow (ι : Type) where
  /-- The name of a label. -/
  label? : ι → Option String
  /-- The label to which an instruction may jump. -/
  target? : ι → Option String
  /-- The instruction behind may be the next. -/
  falls : ι → Bool

namespace ControlFlow

variable {ι : Type} (F : ControlFlow ι)

/-- The labels in code. -/
def labels (code : List ι) : List String := code.filterMap F.label?

/-- The labels to which code jumps. -/
def targets (code : List ι) : List String := code.filterMap F.target?

/-- A step from one place in the code to the next. -/
inductive Steps (code : List ι) : List ι → List ι → Prop
  | fall {i : ι} {rest : List ι} (hi : F.falls i = true) : Steps code (i :: rest) rest
  | jump {i j : ι} {l : String} {q rest : List ι} (hi : F.target? i = some l)
      (hj : F.label? j = some l) (hrest : j :: rest <:+ code) : Steps code (i :: q) (j :: rest)

/-- A path leads from one place in the code to the other. -/
abbrev Leads (code : List ι) : List ι → List ι → Prop := Relation.ReflTransGen (F.Steps code)

/-- Jumps in this part lead to labels in it. -/
def Closed (p : List ι) : Prop := F.targets p ⊆ F.labels p

/-- A path that enters the part at its front does not leave it. -/
def Confines (p : List ι) : Prop :=
  ∀ code rest, (F.labels code).Nodup → p ++ rest <:+ code → ∀ q, F.Leads code (p ++ rest) q →
    ∃ r, r ≠ [] ∧ r <:+ p ∧ q = r ++ rest

variable {F} {code p q r rest : List ι} {i j : ι} {l : String}

/-! ## Labels -/

theorem mem_labels : l ∈ F.labels code ↔ ∃ i ∈ code, F.label? i = some l := List.mem_filterMap

theorem mem_targets : l ∈ F.targets code ↔ ∃ i ∈ code, F.target? i = some l := List.mem_filterMap

theorem labels_append (p q : List ι) : F.labels (p ++ q) = F.labels p ++ F.labels q :=
  List.filterMap_append

theorem targets_append (p q : List ι) : F.targets (p ++ q) = F.targets p ++ F.targets q :=
  List.filterMap_append

/-- Each label in code has a place. -/
theorem exists_place (h : l ∈ F.labels code) :
    ∃ j rest, F.label? j = some l ∧ j :: rest <:+ code := by
  obtain ⟨j, hj, hlabel⟩ := mem_labels.mp h
  obtain ⟨front, rest, rfl⟩ := List.append_of_mem hj
  exact ⟨j, rest, hlabel, List.suffix_append front _⟩

/-- Where all labels differ, each has one place. -/
theorem place_unique (hnodup : (F.labels code).Nodup) (hi : F.label? i = some l)
    (hj : F.label? j = some l) (hp : i :: p <:+ code) (hq : j :: q <:+ code) : i :: p = j :: q := by
  -- The longer of the two suffixes would have the label twice.
  have shorter {i j : ι} {p q : List ι} (hi : F.label? i = some l) (hj : F.label? j = some l)
      (hq : j :: q <:+ code) (hsuffix : i :: p <:+ q) : False := by
    obtain ⟨front, rfl⟩ := hq
    rw [labels_append, List.nodup_append] at hnodup
    have hcons : F.labels (j :: q) = l :: F.labels q := List.filterMap_cons_some hj
    rw [hcons, List.nodup_cons] at hnodup
    exact hnodup.2.1.1 (mem_labels.mpr ⟨i, hsuffix.subset List.mem_cons_self, hi⟩)
  rcases List.suffix_or_suffix_of_suffix hp hq with h | h
  · rcases List.suffix_cons_iff.mp h with h | h
    · exact h
    · exact (shorter hi hj hq h).elim
  · rcases List.suffix_cons_iff.mp h with h | h
    · exact h.symm
    · exact (shorter hj hi hp h).elim

/-! ## Closed parts -/

theorem closed_append (hp : F.Closed p) (hq : F.Closed q) : F.Closed (p ++ q) := by
  unfold Closed
  rw [targets_append, labels_append]
  exact List.append_subset.mpr ⟨List.subset_append_of_subset_left _ hp,
    List.subset_append_of_subset_right _ hq⟩

/-- From a closed part a step leads to a place in it or to its end, as if it stood alone. -/
theorem Closed.stays (hp : F.Closed p) (hnodup : (F.labels code).Nodup) (hcode : p ++ rest <:+ code)
    (hr : r <:+ p) (hne : r ≠ []) (hstep : F.Steps code (r ++ rest) q) :
    ∃ r', r' <:+ p ∧ F.Steps p r r' ∧ q = r' ++ rest := by
  obtain ⟨i, r, rfl⟩ := List.exists_cons_of_ne_nil hne
  cases hstep with
  | fall hi => exact ⟨r, (List.suffix_cons i r).trans hr, .fall hi, rfl⟩
  | @jump _ j l _ rest' hi hj hrest' =>
    have hmem : l ∈ F.targets p := mem_targets.mpr ⟨i, hr.subset List.mem_cons_self, hi⟩
    obtain ⟨k, back, hk, hback⟩ := exists_place (hp hmem)
    have hplace : k :: (back ++ rest) <:+ code := by
      obtain ⟨front, rfl⟩ := hback
      refine List.IsSuffix.trans ?_ hcode
      rw [List.append_assoc]
      exact List.suffix_append front _
    rw [place_unique hnodup hj hk hrest' hplace]
    exact ⟨k :: back, hback, .jump hi hk hback, rfl⟩

/-- A path from the front of a closed part stays in it, or goes through it and on behind it. -/
theorem Closed.leads_append (hp : F.Closed p) (hnodup : (F.labels code).Nodup)
    (hcode : p ++ rest <:+ code) (h : F.Leads code (p ++ rest) q) :
    (∃ r, r ≠ [] ∧ r <:+ p ∧ F.Leads p p r ∧ q = r ++ rest) ∨
      F.Leads p p [] ∧ F.Leads code rest q := by
  induction h with
  | refl =>
    by_cases hnil : p = []
    · subst hnil
      exact .inr ⟨.refl, .refl⟩
    · exact .inl ⟨p, hnil, List.suffix_refl p, .refl, rfl⟩
  | tail _ hstep ih =>
    rcases ih with ⟨r, hne, hr, hpath, rfl⟩ | ⟨hthrough, hpath⟩
    · obtain ⟨r', hr', hstep', rfl⟩ := hp.stays hnodup hcode hr hne hstep
      by_cases hnil : r' = []
      · subst hnil
        exact .inr ⟨hpath.tail hstep', .refl⟩
      · exact .inl ⟨r', hnil, hr', hpath.tail hstep', rfl⟩
    · exact .inr ⟨hthrough, hpath.tail hstep⟩

/-! ## Parts that confine control -/

/-- A return. -/
theorem confines_single (hfalls : F.falls i = false) (htarget : F.target? i = none) :
    F.Confines [i] := by
  intro code rest _ _ q hq
  refine ⟨[i], List.cons_ne_nil i _, List.suffix_refl _, ?_⟩
  induction hq with
  | refl => rfl
  | tail _ hstep ih =>
    subst ih
    cases hstep with
    | fall hi => simp [hfalls] at hi
    | jump hi => simp [htarget] at hi

/-- What stands behind the part is not reached. -/
theorem Confines.append (hp : F.Confines p) (q : List ι) : F.Confines (p ++ q) := by
  intro code rest hnodup hcode place hplace
  rw [List.append_assoc] at hcode hplace
  obtain ⟨r, hne, hr, rfl⟩ := hp code (q ++ rest) hnodup hcode place hplace
  obtain ⟨front, rfl⟩ := hr
  refine ⟨r ++ q, by simp [hne], ?_, by simp⟩
  rw [List.append_assoc]
  exact List.suffix_append front _

/-- A closed part in front does not matter. -/
theorem Closed.confines_append (hp : F.Closed p) (hq : F.Confines q) : F.Confines (p ++ q) := by
  intro code rest hnodup hcode place hplace
  rw [List.append_assoc] at hcode hplace
  rcases hp.leads_append hnodup hcode hplace with ⟨r, hne, ⟨front, rfl⟩, -, rfl⟩ | ⟨-, hlead⟩
  · refine ⟨r ++ q, by simp [hne], ?_, by simp⟩
    rw [List.append_assoc]
    exact List.suffix_append front _
  · have hcode' : q ++ rest <:+ code := (List.suffix_append p _).trans hcode
    obtain ⟨r, hne, hr, rfl⟩ := hq code rest hnodup hcode' place hlead
    exact ⟨r, hne, hr.trans (List.suffix_append p q), rfl⟩

/-- Two cases: a jump to the second one over the first one and what stands behind that. -/
theorem confines_fork (hi : F.target? i = some l) (hj : F.label? j = some l)
    (hj' : F.target? j = none) (hp : F.Confines p) (hq : F.Confines q) (back : List ι) :
    F.Confines (i :: (p ++ (back ++ j :: q))) := by
  intro code rest hnodup hcode place hplace
  let first : List ι := p ++ (back ++ j :: q)
  have hfirst : first ++ rest <:+ code := (List.suffix_cons i _).trans hcode
  have hlabel : j :: (q ++ rest) <:+ code := by
    refine List.IsSuffix.trans ⟨p ++ back, ?_⟩ hfirst
    simp [first]
  have inv : place = i :: first ++ rest ∨ F.Leads code (first ++ rest) place ∨
      place = j :: (q ++ rest) ∨ F.Leads code (q ++ rest) place := by
    induction hplace with
    | refl => exact .inl rfl
    | tail _ hstep ih =>
      rcases ih with rfl | hlead | rfl | hlead
      · cases hstep with
        | fall => exact .inr (.inl .refl)
        | jump hi' hk hplace =>
          cases hi.symm.trans hi'
          exact .inr (.inr (.inl (place_unique hnodup hk hj hplace hlabel)))
      · exact .inr (.inl (hlead.tail hstep))
      · cases hstep with
        | fall => exact .inr (.inr (.inr .refl))
        | jump hj'' => simp [hj'] at hj''
      · exact .inr (.inr (.inr (hlead.tail hstep)))
  rcases inv with rfl | hlead | rfl | hlead
  · exact ⟨i :: first, by simp, List.suffix_refl _, rfl⟩
  · obtain ⟨r, hne, hr, rfl⟩ := hp.append (back ++ j :: q) code rest hnodup hfirst place hlead
    exact ⟨r, hne, hr.trans (List.suffix_cons i _), rfl⟩
  · refine ⟨j :: q, by simp, ⟨i :: (p ++ back), by simp⟩, rfl⟩
  · have hq' := (List.suffix_cons j _).trans hlabel
    obtain ⟨r, hne, hr, rfl⟩ := hq code rest hnodup hq' place hlead
    exact ⟨r, hne, hr.trans ⟨i :: (p ++ (back ++ [j])), by simp⟩, rfl⟩

end ControlFlow

end MiniJava
