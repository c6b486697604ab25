import MiniJava.Proofs.Semantics.ControlFlow

/-!
# What paths visit

Some code is taken by itself here. A path from its front visits instructions
(`ControlFlow.Visits`), and may lead through the code to its end (`ControlFlow.Through`). What is
visited in code that is put together from closed parts is visited in a part, and the part behind
another is visited only if a path leads through that one. The rules are those for parts behind each
other (`Closed.visits_append`), for two cases (`visits_fork`) and for a loop (`visits_loop`).
-/

namespace MiniJava.ControlFlow

variable {ι : Type} (F : ControlFlow ι)

/-- A path leads from the front of the code to its end. -/
def Through (p : List ι) : Prop := F.Leads p p []

/-- A path from the front of the code comes to this instruction. -/
def Visits (p : List ι) (i : ι) : Prop := ∃ rest, F.Leads p p (i :: rest)

/-- A path from one place to another, with the instructions that it passes. -/
inductive Passes (code : List ι) : List ι → List ι → List ι → Prop
  | refl (p : List ι) : Passes code p [] p
  | step {i : ι} {rest is q r : List ι} (hstep : F.Steps code (i :: rest) q)
      (hpath : Passes code q is r) : Passes code (i :: rest) (i :: is) r

variable {F} {code p q r rest place back : List ι} {i j k g m : ι} {l e : String}

/-! ## Steps -/

theorem Steps.suffix (h : F.Steps code p q) (hp : p <:+ code) : q <:+ code := by
  cases h with
  | fall hi => exact (List.suffix_cons _ _).trans hp
  | jump hi hj hrest => exact hrest

theorem suffix_of_leads (h : F.Leads code code p) : p <:+ code := by
  induction h with
  | refl => exact List.suffix_refl code
  | tail _ hstep ih => exact hstep.suffix ih

/-- From an instruction a path goes on behind it, or at the label to which it jumps. -/
theorem leads_cons (h : F.Leads code (i :: rest) place) :
    place = i :: rest ∨ F.falls i = true ∧ F.Leads code rest place ∨
      ∃ l j q, F.target? i = some l ∧ F.label? j = some l ∧ j :: q <:+ code ∧
        F.Leads code (j :: q) place := by
  rcases Relation.ReflTransGen.cases_head h with heq | ⟨next, hstep, hpath⟩
  · exact .inl heq.symm
  · cases hstep with
    | fall hi => exact .inr (.inl ⟨hi, hpath⟩)
    | jump hi hj hrest => exact .inr (.inr ⟨_, _, _, hi, hj, hrest, hpath⟩)

/-- From an instruction that is no jump a path goes on behind it. -/
theorem leads_cons_of_straight (hi : F.target? i = none) (h : F.Leads code (i :: rest) place) :
    place = i :: rest ∨ F.falls i = true ∧ F.Leads code rest place := by
  rcases leads_cons h with h | h | ⟨l, -, -, hl, -⟩
  · exact .inl h
  · exact .inr h
  · cases hi.symm.trans hl

/-- From a jump a path goes on behind it, or at its label. -/
theorem leads_cons_of_jump (hnodup : (F.labels code).Nodup) (hi : F.target? i = some l)
    (hj : F.label? j = some l) (hq : j :: q <:+ code) (h : F.Leads code (i :: rest) place) :
    place = i :: rest ∨ F.falls i = true ∧ F.Leads code rest place ∨ F.Leads code (j :: q) place := by
  rcases leads_cons h with h | h | ⟨l', j', q', hl', hj', hq', hpath⟩
  · exact .inl h
  · exact .inr (.inl h)
  · cases hi.symm.trans hl'
    rw [place_unique hnodup hj' hj hq' hq] at hpath
    exact .inr (.inr hpath)

/-- There are the same paths in front of other code. -/
theorem Leads.append_right (h : F.Leads code p r) (q : List ι) :
    F.Leads (code ++ q) (p ++ q) (r ++ q) := by
  induction h with
  | refl => exact .refl
  | tail _ hstep ih =>
    refine ih.tail ?_
    cases hstep with
    | fall hi => exact .fall hi
    | jump hi hj hrest =>
      obtain ⟨front, rfl⟩ := hrest
      refine .jump hi hj ⟨front, ?_⟩
      simp

theorem Visits.append_right (h : F.Visits p i) (q : List ι) : F.Visits (p ++ q) i := by
  obtain ⟨rest, h⟩ := h
  exact ⟨rest ++ q, h.append_right q⟩

/-- A path is one of other instructions too if those it passes may go on there as they do here. -/
theorem Passes.leads {G : ControlFlow ι} {is : List ι} (h : F.Passes code p is q)
    (hlabel : G.label? = F.label?) (htarget : G.target? = F.target?)
    (hfalls : ∀ i ∈ is, F.falls i = true → G.falls i = true) : G.Leads code p q := by
  induction h with
  | refl => exact .refl
  | step hstep _ ih =>
    obtain ⟨hi, his⟩ := List.forall_mem_cons.mp hfalls
    refine Relation.ReflTransGen.head ?_ (ih his)
    cases hstep with
    | fall h => exact .fall (hi h)
    | jump h hj hrest => exact .jump (htarget ▸ h) (hlabel ▸ hj) hrest

theorem leads_nil (h : F.Leads code [] place) : place = [] := by
  rcases Relation.ReflTransGen.cases_head h with h | ⟨next, hstep, -⟩
  · exact h.symm
  · cases hstep

/-- A path through the last part of some code is one through that part alone. -/
theorem Closed.leads_alone (hq : F.Closed q) (hnodup : (F.labels code).Nodup) (hcode : q <:+ code)
    (h : F.Leads code q place) : F.Leads q q place := by
  rw [← List.append_nil q] at h hcode
  rcases hq.leads_append hnodup hcode h with ⟨r, -, -, hr, rfl⟩ | ⟨hthrough, h⟩
  · rwa [List.append_nil]
  · rwa [leads_nil h]

/-- Behind code that a path leads through the next instruction is visited. -/
theorem Through.visits (h : F.Through p) (i : ι) (q : List ι) : F.Visits (p ++ i :: q) i :=
  ⟨q, Leads.append_right h (i :: q)⟩

/-- A path leads through code only if it may go on behind the last instruction. -/
theorem falls_of_through {i : ι} (h : F.Through (p ++ [i])) : F.falls i = true := by
  rcases Relation.ReflTransGen.cases_tail h with h | ⟨q, hpath, hstep⟩
  · simp at h
  · cases hstep with
    | @fall j _ hj =>
      have hlast := List.suffix_iff_eq_append.mp (suffix_of_leads hpath)
      obtain ⟨-, h⟩ := List.append_inj' hlast.symm rfl
      exact (List.cons.inj h).1 ▸ hj

/-! ## Parts behind each other -/

theorem not_visits_nil : ¬F.Visits [] i := by
  rintro ⟨rest, h⟩
  cases leads_nil h

theorem visits_single (hi : F.target? i = none) (h : F.Visits [i] j) : j = i := by
  obtain ⟨rest, h⟩ := h
  rcases leads_cons_of_straight hi h with h | ⟨-, h⟩
  · exact (List.cons.inj h).1
  · cases leads_nil h

theorem falls_of_through_single (hi : F.target? i = none) (h : F.Through [i]) :
    F.falls i = true := by
  rcases leads_cons_of_straight hi h with h | ⟨hfalls, -⟩
  · cases h
  · exact hfalls

/-- A path through two closed parts leads through both. -/
theorem Closed.through_append (hp : F.Closed p) (hq : F.Closed q)
    (hnodup : (F.labels (p ++ q)).Nodup) (h : F.Through (p ++ q)) : F.Through p ∧ F.Through q := by
  rcases hp.leads_append hnodup (List.suffix_refl _) h with ⟨r, hne, -, -, h⟩ | ⟨hthrough, h⟩
  · simp [hne] at h
  · exact ⟨hthrough, hq.leads_alone hnodup (List.suffix_append p q) h⟩

/-- What stands behind a closed part is visited only by paths through that part. -/
theorem Closed.visits_append (hp : F.Closed p) (hq : F.Closed q)
    (hnodup : (F.labels (p ++ q)).Nodup) (h : F.Visits (p ++ q) i) :
    F.Visits p i ∨ F.Through p ∧ F.Visits q i := by
  obtain ⟨rest, h⟩ := h
  rcases hp.leads_append hnodup (List.suffix_refl _) h with ⟨r, hne, -, hr, h⟩ | ⟨hthrough, h⟩
  · obtain ⟨j, r, rfl⟩ := List.exists_cons_of_ne_nil hne
    cases h
    exact .inl ⟨r, hr⟩
  · exact .inr ⟨hthrough, rest, hq.leads_alone hnodup (List.suffix_append p q) h⟩

/-! ## Two cases -/

section Fork

variable (hi : F.target? i = some l) (hj : F.label? j = some l) (hj' : F.target? j = none)
  (hg : F.target? g = some e) (hg' : F.falls g = false) (hk : F.label? k = some e)
  (hk' : F.target? k = none) (hp : F.Closed p) (hq : F.Closed q)
  (hback : F.Through p → back = [g])
  (hnodup : (F.labels (i :: (p ++ (back ++ j :: (q ++ [k]))))).Nodup)

include hi hj hj' hg hg' hk hk' hp hq hback hnodup

/-- Where paths lead in a fork: a jump to the second case over the first one, which jumps over the
second one at its end, unless no path leads through it. -/
theorem leads_fork
    (h : F.Leads (i :: (p ++ (back ++ j :: (q ++ [k])))) (i :: (p ++ (back ++ j :: (q ++ [k]))))
      place) :
    place = i :: (p ++ (back ++ j :: (q ++ [k]))) ∨
    (∃ r, r ≠ [] ∧ F.Leads p p r ∧ place = r ++ (back ++ j :: (q ++ [k]))) ∨
    (F.Through p ∧ place = g :: j :: (q ++ [k])) ∨
    place = j :: (q ++ [k]) ∨
    (∃ r, r ≠ [] ∧ F.Leads q q r ∧ place = r ++ [k]) ∨
    (F.Through p ∨ F.Through q) ∧ (place = [k] ∨ place = []) := by
  generalize hcode : i :: (p ++ (back ++ j :: (q ++ [k]))) = code at h hnodup ⊢
  have hfirst : p ++ (back ++ j :: (q ++ [k])) <:+ code := hcode ▸ List.suffix_cons i _
  have hsecond : j :: (q ++ [k]) <:+ code :=
    ((List.suffix_append back _).trans (List.suffix_append p _)).trans hfirst
  have hend : [k] <:+ code := ((List.suffix_append q _).trans (List.suffix_cons j _)).trans hsecond
  have fromEnd (h : F.Leads code [k] place) : place = [k] ∨ place = [] :=
    (leads_cons_of_straight hk' h).imp_right fun h => leads_nil h.2
  have fromSecond (h : F.Leads code (j :: (q ++ [k])) place) : place = j :: (q ++ [k]) ∨
      (∃ r, r ≠ [] ∧ F.Leads q q r ∧ place = r ++ [k]) ∨
      F.Through q ∧ (place = [k] ∨ place = []) := by
    rcases leads_cons_of_straight hj' h with h | ⟨-, h⟩
    · exact .inl h
    · rcases hq.leads_append hnodup ((List.suffix_cons j _).trans hsecond) h with
        ⟨r, hne, -, hr, h⟩ | ⟨hthrough, h⟩
      · exact .inr (.inl ⟨r, hne, hr, h⟩)
      · exact .inr (.inr ⟨hthrough, fromEnd h⟩)
  rw [← hcode] at h
  rcases leads_cons_of_jump (hcode ▸ hnodup) hi hj (hcode ▸ hsecond) h with h | ⟨-, h⟩ | h
  · exact .inl (h.trans hcode)
  · rw [hcode] at h
    rcases hp.leads_append hnodup hfirst h with ⟨r, hne, -, hr, h⟩ | ⟨hthrough, h⟩
    · exact .inr (.inl ⟨r, hne, hr, h⟩)
    · rw [hback hthrough] at h
      rcases leads_cons_of_jump hnodup hg hk hend h with h | ⟨hfalls, -⟩ | h
      · exact .inr (.inr (.inl ⟨hthrough, h⟩))
      · simp [hg'] at hfalls
      · exact .inr (.inr (.inr (.inr (.inr ⟨.inl hthrough, fromEnd h⟩))))
  · rw [hcode] at h
    rcases fromSecond h with h | h | ⟨hthrough, h⟩
    · exact .inr (.inr (.inr (.inl h)))
    · exact .inr (.inr (.inr (.inr (.inl h))))
    · exact .inr (.inr (.inr (.inr (.inr ⟨.inr hthrough, h⟩))))

/-- A path through a fork leads through one of the cases. -/
theorem through_fork (h : F.Through (i :: (p ++ (back ++ j :: (q ++ [k]))))) :
    F.Through p ∨ F.Through q := by
  rcases leads_fork hi hj hj' hg hg' hk hk' hp hq hback hnodup h with
    h | ⟨r, hne, -, h⟩ | ⟨-, h⟩ | h | ⟨r, hne, -, h⟩ | ⟨hthrough, -⟩
  · cases h
  · simp at h
  · cases h
  · cases h
  · simp at h
  · exact hthrough

/-- What a fork visits. -/
theorem visits_fork (h : F.Visits (i :: (p ++ (back ++ j :: (q ++ [k])))) m) :
    m ∈ [i, g, j, k] ∨ F.Visits p m ∨ F.Visits q m := by
  obtain ⟨rest, h⟩ := h
  rcases leads_fork hi hj hj' hg hg' hk hk' hp hq hback hnodup h with
    h | ⟨r, hne, hr, h⟩ | ⟨-, h⟩ | h | ⟨r, hne, hr, h⟩ | ⟨-, h | h⟩
  · simp [(List.cons.inj h).1]
  · obtain ⟨n, r, rfl⟩ := List.exists_cons_of_ne_nil hne
    cases h
    exact .inr (.inl ⟨r, hr⟩)
  · simp [(List.cons.inj h).1]
  · simp [(List.cons.inj h).1]
  · obtain ⟨n, r, rfl⟩ := List.exists_cons_of_ne_nil hne
    cases h
    exact .inr (.inr ⟨r, hr⟩)
  · simp [(List.cons.inj h).1]
  · cases h

end Fork

/-! ## Loops -/

section Loop

variable {c b n : ι} {start body : String} (hc : F.label? c = some start) (hc' : F.target? c = none)
  (hi : F.target? i = some body) (hg : F.target? g = some e) (hg' : F.falls g = false)
  (hb : F.label? b = some body) (hb' : F.target? b = none) (hn : F.target? n = some start)
  (hn' : F.falls n = false) (hk : F.label? k = some e) (hk' : F.target? k = none)
  (hp : F.Closed p) (hq : F.Closed q)
  (hnodup : (F.labels (c :: (p ++ (i :: g :: b :: (q ++ [n, k]))))).Nodup)

include hc hc' hi hg hg' hb hb' hn hn' hk hk' hp hq hnodup

/-- Where paths lead in a loop: through the condition to a jump over the exit into the body, from the
end of which they jump back. -/
theorem leads_loop (h : F.Leads (c :: (p ++ (i :: g :: b :: (q ++ [n, k]))))
      (c :: (p ++ (i :: g :: b :: (q ++ [n, k])))) place) :
    place = c :: (p ++ (i :: g :: b :: (q ++ [n, k]))) ∨
    (∃ r, F.Leads p p r ∧ place = r ++ (i :: g :: b :: (q ++ [n, k]))) ∨
    F.Through p ∧ (place = g :: b :: (q ++ [n, k]) ∨ place = b :: (q ++ [n, k]) ∨
      (∃ r, F.Leads q q r ∧ place = r ++ [n, k]) ∨ place = [k] ∨ place = []) := by
  generalize hcode : c :: (p ++ (i :: g :: b :: (q ++ [n, k]))) = code at h hnodup ⊢
  have hcond : p ++ (i :: g :: b :: (q ++ [n, k])) <:+ code := hcode ▸ List.suffix_cons c _
  have hbody : b :: (q ++ [n, k]) <:+ code :=
    ((List.suffix_append [i, g] _).trans (List.suffix_append p _)).trans hcond
  have hback : [n, k] <:+ code :=
    ((List.suffix_append q _).trans (List.suffix_cons b _)).trans hbody
  have hend : [k] <:+ code := (List.suffix_cons n _).trans hback
  induction h with
  | refl => exact .inl rfl
  | tail _ hstep ih =>
    rcases ih with rfl | ⟨r, hr, rfl⟩ | ⟨hthrough, rfl | rfl | ⟨r, hr, rfl⟩ | rfl | rfl⟩
    · rw [← hcode] at hstep
      cases hstep with
      | fall => exact .inr (.inl ⟨p, .refl, rfl⟩)
      | jump h => cases hc'.symm.trans h
    · by_cases hnil : r = []
      · subst hnil
        cases hstep with
        | fall => exact .inr (.inr ⟨hr, .inl rfl⟩)
        | jump h hj hrest =>
          cases hi.symm.trans h
          exact .inr (.inr ⟨hr, .inr (.inl (place_unique hnodup hj hb hrest hbody))⟩)
      · obtain ⟨r', -, hstep', rfl⟩ := hp.stays hnodup hcond (suffix_of_leads hr) hnil hstep
        exact .inr (.inl ⟨r', hr.tail hstep', rfl⟩)
    · cases hstep with
      | fall h => simp [hg'] at h
      | jump h hj hrest =>
        cases hg.symm.trans h
        exact .inr (.inr ⟨hthrough, .inr (.inr (.inr (.inl
          (place_unique hnodup hj hk hrest hend))))⟩)
    · cases hstep with
      | fall => exact .inr (.inr ⟨hthrough, .inr (.inr (.inl ⟨q, .refl, rfl⟩))⟩)
      | jump h => cases hb'.symm.trans h
    · by_cases hnil : r = []
      · subst hnil
        cases hstep with
        | fall h => simp [hn'] at h
        | jump h hj hrest =>
          cases hn.symm.trans h
          refine .inl ?_
          rw [← hcode] at hrest hnodup ⊢
          exact place_unique hnodup hj hc hrest (List.suffix_refl _)
      · have hplace := (List.suffix_cons b _).trans hbody
        obtain ⟨r', -, hstep', rfl⟩ := hq.stays hnodup hplace (suffix_of_leads hr) hnil hstep
        exact .inr (.inr ⟨hthrough, .inr (.inr (.inl ⟨r', hr.tail hstep', rfl⟩))⟩)
    · cases hstep with
      | fall => exact .inr (.inr ⟨hthrough, .inr (.inr (.inr (.inr rfl)))⟩)
      | jump h => cases hk'.symm.trans h
    · cases hstep

/-- What a loop visits. The condition may jump into the body or leave the loop only behind it. -/
theorem visits_loop (h : F.Visits (c :: (p ++ (i :: g :: b :: (q ++ [n, k])))) m) :
    m = c ∨ F.Visits p m ∨ F.Through p ∧ (m ∈ [i, g, b, n, k] ∨ F.Visits q m) := by
  obtain ⟨rest, h⟩ := h
  rcases leads_loop hc hc' hi hg hg' hb hb' hn hn' hk hk' hp hq hnodup h with
    h | ⟨r, hr, h⟩ | ⟨hthrough, h | h | ⟨r, hr, h⟩ | h | h⟩
  · exact .inl (List.cons.inj h).1
  · cases r with
    | nil => exact .inr (.inr ⟨hr, .inl (by simp [(List.cons.inj h).1])⟩)
    | cons x r =>
      cases h
      exact .inr (.inl ⟨r, hr⟩)
  · exact .inr (.inr ⟨hthrough, .inl (by simp [(List.cons.inj h).1])⟩)
  · exact .inr (.inr ⟨hthrough, .inl (by simp [(List.cons.inj h).1])⟩)
  · cases r with
    | nil => exact .inr (.inr ⟨hthrough, .inl (by simp [(List.cons.inj h).1])⟩)
    | cons x r =>
      cases h
      exact .inr (.inr ⟨hthrough, .inr ⟨r, hr⟩⟩)
  · exact .inr (.inr ⟨hthrough, .inl (by simp [(List.cons.inj h).1])⟩)
  · cases h

end Loop

end MiniJava.ControlFlow
