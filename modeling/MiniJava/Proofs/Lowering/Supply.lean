import Mathlib.Data.List.Nodup
import Mathlib.Data.List.Perm.Subperm
import Std.Data.String.ToNat
import MiniJava.Ir.OfTree

/-!
# Names from a supply

A numbered name is a stem that does not end with a digit, and a number behind it. So it determines
both, and names with different stems or numbers differ (`append_toString_inj`).

* A supply may still issue a temporary name (`Supply.MayIssue`) if its number has not been passed and
  it is not reserved. `Supply.temp` hands out such a name, which from then on may not be issued.
* The names that are handed out on the way from one supply to another (`Supply.Hands`) differ, and
  none is reserved.
* The labels that one supply issues on the way to another are those with numbers in between
  (`Supply.IssuesLabel`). Labels issued on consecutive ways differ (`Issues.append`).
-/

namespace MiniJava

/-! ## Numbered names -/

/-- The text does not end with a digit. -/
def IsStem (stem : String) : Prop := stem.toList.getLast?.map Char.isDigit = some false

instance (stem : String) : Decidable (IsStem stem) := inferInstanceAs (Decidable (_ = _))

/-- A numbered name without its number. -/
theorem IsStem.dropWhile_append_toString {stem : String} (h : IsStem stem) (n : Nat) :
    (stem ++ toString n).toList.reverse.dropWhile Char.isDigit = stem.toList.reverse := by
  rw [String.toList_append, List.reverse_append, List.dropWhile_append_of_pos]
  · unfold IsStem at h
    rw [← List.head?_reverse] at h
    cases hcs : stem.toList.reverse with
    | nil => rfl
    | cons c cs =>
      rw [hcs] at h
      simp only [List.head?_cons, Option.map_some, Option.some.injEq] at h
      rw [List.dropWhile_cons_of_neg (by rw [h]; exact Bool.false_ne_true)]
  · intro c hc
    rw [List.mem_reverse, Nat.toString_eq_repr, Nat.toList_repr] at hc
    exact Nat.isDigit_of_mem_toDigits (by decide) (by decide) hc

/-- **A numbered name determines its stem and its number.** -/
theorem append_toString_inj {p q : String} (hp : IsStem p) (hq : IsStem q) {m n : Nat}
    (h : p ++ toString m = q ++ toString n) : p = q ∧ m = n := by
  have hstem : p = q := by
    have hdrop := hp.dropWhile_append_toString m
    rw [h, hq.dropWhile_append_toString n] at hdrop
    exact String.toList_injective (List.reverse_injective hdrop).symm
  subst hstem
  have hnumber : (toString m).toList = (toString n).toList := by
    have hlist := congrArg String.toList h
    rwa [String.toList_append, String.toList_append, List.append_cancel_left_eq] at hlist
  refine ⟨rfl, Nat.repr_injective (String.toList_injective ?_)⟩
  rwa [Nat.toString_eq_repr, Nat.toString_eq_repr] at hnumber

namespace Ir

/-- The stems of the labels of a construct. -/
def LabelKind.stems : LabelKind → List String
  | ifElse => ["if_then_", "if_end_"]
  | whileLoop => ["while_cond_", "while_body_", "while_end_"]
  | and => ["and_true_", "and_end_"]
  | or => ["or_true_", "or_end_"]

theorem LabelKind.isStem {k : LabelKind} {p : String} (hp : p ∈ k.stems) : IsStem p := by
  cases k <;> revert p <;> decide

theorem LabelKind.eq_of_mem_stems {k l : LabelKind} {p : String} (hk : p ∈ k.stems)
    (hl : p ∈ l.stems) : k = l := by
  cases k <;> cases l <;> first | rfl | (revert p; decide)

namespace Supply

variable {s s' s'' : Supply} {x : String} {ls ls' : List String}

/-! ## Temporary names -/

theorem tempName_injective : Function.Injective tempName := fun _ _ h =>
  (append_toString_inj (by decide) (by decide) h).2

/-- The name of this number has not been issued. -/
def MayIssue (s : Supply) (x : String) : Prop :=
  x ∉ s.reserved ∧ ∃ n, s.nextTemp ≤ n ∧ x = tempName n

theorem le_firstFree (reserved : List String) (steps n : Nat) :
    n ≤ firstFree reserved steps n := by
  induction steps generalizing n with
  | zero => exact Nat.le_refl n
  | succ steps ih =>
    unfold firstFree
    split
    · exact Nat.le_trans (Nat.le_succ n) (ih (n + 1))
    · exact Nat.le_refl n

/-- All names that are passed over are reserved. -/
theorem tempName_mem_of_lt_firstFree {reserved : List String} {steps n k : Nat} (hn : n ≤ k)
    (hk : k < firstFree reserved steps n) : tempName k ∈ reserved := by
  induction steps generalizing n with
  | zero => exact absurd hk (Nat.not_lt.mpr hn)
  | succ steps ih =>
    unfold firstFree at hk
    split at hk <;> rename_i hreserved
    · rcases Nat.eq_or_lt_of_le hn with rfl | hn
      · exact List.contains_iff_mem.mp hreserved
      · exact ih hn hk
    · exact absurd hk (Nat.not_lt.mpr hn)

/-- If the name that is found is reserved, so are all that were tried. -/
theorem tempName_mem_of_firstFree_mem {reserved : List String} {steps n : Nat}
    (h : tempName (firstFree reserved steps n) ∈ reserved) :
    ∀ k ≤ steps, tempName (n + k) ∈ reserved := by
  induction steps generalizing n with
  | zero =>
    intro k hk
    obtain rfl := Nat.le_zero.mp hk
    exact h
  | succ steps ih =>
    unfold firstFree at h
    split at h <;> rename_i hn
    · intro k hk
      cases k with
      | zero => exact List.contains_iff_mem.mp hn
      | succ k =>
        rw [← Nat.succ_add_eq_add_succ]
        exact ih h k (Nat.le_of_succ_le_succ hk)
    · exact absurd (List.contains_iff_mem.mpr h) hn

/-- One of more numbers than there are reserved names is free. -/
theorem firstFree_not_mem (reserved : List String) (n : Nat) :
    tempName (firstFree reserved reserved.length n) ∉ reserved := by
  intro h
  have hall := tempName_mem_of_firstFree_mem h
  let tried := (List.range (reserved.length + 1)).map fun k => tempName (n + k)
  have hnodup : tried.Nodup := by
    refine List.nodup_range.map fun j k hjk => ?_
    exact Nat.add_left_cancel (tempName_injective hjk)
  have hsubset : tried ⊆ reserved := by
    intro x hx
    obtain ⟨k, hk, rfl⟩ := List.mem_map.mp hx
    exact hall k (Nat.le_of_lt_succ (List.mem_range.mp hk))
  have hlength := (hnodup.subperm hsubset).length_le
  simp only [tried, List.length_map, List.length_range] at hlength
  omega

theorem mayIssue_temp (s : Supply) : s.MayIssue s.temp.1 :=
  ⟨firstFree_not_mem s.reserved s.nextTemp, _, le_firstFree _ _ _, rfl⟩

theorem not_mayIssue_temp (s : Supply) : ¬s.temp.2.MayIssue s.temp.1 := by
  rintro ⟨-, n, hn, hname⟩
  have hnumber := tempName_injective hname
  simp only [temp] at hn
  omega

/-- Only the name that is handed out may not be issued any more. -/
theorem eq_temp_of_not_mayIssue (h : s.MayIssue x) (h' : ¬s.temp.2.MayIssue x) : x = s.temp.1 := by
  obtain ⟨hreserved, n, hn, rfl⟩ := h
  let found := firstFree s.reserved s.reserved.length s.nextTemp
  have hle : n ≤ found := by
    by_contra hlt
    exact h' ⟨hreserved, n, Nat.lt_of_not_le hlt, rfl⟩
  rcases Nat.eq_or_lt_of_le hle with heq | hlt
  · exact congrArg tempName heq
  · exact absurd (tempName_mem_of_lt_firstFree hn hlt) hreserved

/-! ## One supply before another -/

/-- The next number for the labels of a construct. -/
def counter (s : Supply) : LabelKind → Nat
  | .ifElse => s.nextIf
  | .whileLoop => s.nextWhile
  | .and => s.nextAnd
  | .or => s.nextOr

/-- What comes of a supply when names are handed out. -/
structure Precedes (s s' : Supply) : Prop where
  reserved : s'.reserved = s.reserved
  temps : s.nextTemp ≤ s'.nextTemp
  labels : ∀ k, s.counter k ≤ s'.counter k

namespace Precedes

theorem refl (s : Supply) : s.Precedes s := ⟨rfl, Nat.le_refl _, fun _ => Nat.le_refl _⟩

theorem trans (h : s.Precedes s') (h' : s'.Precedes s'') : s.Precedes s'' :=
  ⟨h'.reserved.trans h.reserved, Nat.le_trans h.temps h'.temps,
    fun k => Nat.le_trans (h.labels k) (h'.labels k)⟩

theorem temp (s : Supply) : s.Precedes s.temp.2 := by
  refine ⟨rfl, ?_, fun k => ?_⟩
  · exact Nat.le_succ_of_le (le_firstFree s.reserved s.reserved.length s.nextTemp)
  · cases k <;> exact Nat.le_refl _

theorem label (s : Supply) (k : LabelKind) : s.Precedes (s.label k).2 := by
  refine ⟨by cases k <;> rfl, by cases k <;> exact Nat.le_refl _, fun l => ?_⟩
  cases k <;> cases l <;> simp [Supply.label, counter]

/-- What may be issued later may be issued. -/
theorem mayIssue (h : s.Precedes s') (hx : s'.MayIssue x) : s.MayIssue x := by
  obtain ⟨hreserved, n, hn, hname⟩ := hx
  exact ⟨h.reserved ▸ hreserved, n, Nat.le_trans h.temps hn, hname⟩

end Precedes

/-! ## The names that are handed out -/

/-- On the way from one supply to another these names of temporary variables are handed out, in this
order. -/
inductive Hands : Supply → List String → Supply → Prop
  | refl (s : Supply) : Hands s [] s
  | temp {s s' : Supply} {xs : List String} (h : Hands s.temp.2 xs s') : Hands s (s.temp.1 :: xs) s'
  | label {s s' : Supply} {xs : List String} (k : LabelKind) (h : Hands (s.label k).2 xs s') :
    Hands s xs s'

namespace Hands

variable {xs ys : List String}

theorem append (h : s.Hands xs s') (h' : s'.Hands ys s'') : s.Hands (xs ++ ys) s'' := by
  induction h with
  | refl => exact h'
  | temp _ ih => exact .temp (ih h')
  | label k _ ih => exact .label k (ih h')

theorem precedes (h : s.Hands xs s') : s.Precedes s' := by
  induction h with
  | refl s => exact .refl s
  | temp _ ih => exact (Precedes.temp _).trans ih
  | label k _ ih => exact (Precedes.label _ k).trans ih

/-- A name is handed out if it may be issued before and not behind. -/
theorem mem_iff (h : s.Hands xs s') : x ∈ xs ↔ s.MayIssue x ∧ ¬s'.MayIssue x := by
  induction h with
  | refl s => simp
  | @temp s s' xs h ih =>
    rw [List.mem_cons, ih]
    constructor
    · rintro (rfl | ⟨hmay, hnot⟩)
      · exact ⟨s.mayIssue_temp, fun hmay => s.not_mayIssue_temp (h.precedes.mayIssue hmay)⟩
      · exact ⟨(Precedes.temp s).mayIssue hmay, hnot⟩
    · rintro ⟨hmay, hnot⟩
      by_cases htemp : s.temp.2.MayIssue x
      · exact .inr ⟨htemp, hnot⟩
      · exact .inl (eq_temp_of_not_mayIssue hmay htemp)
  | @label s s' xs k h ih =>
    have hmay : (s.label k).2.MayIssue x ↔ s.MayIssue x := by cases k <;> rfl
    rw [ih, hmay]

/-- **No name is handed out twice.** -/
theorem nodup (h : s.Hands xs s') : xs.Nodup := by
  induction h with
  | refl => exact List.nodup_nil
  | @temp s s' xs h ih =>
    exact List.nodup_cons.mpr ⟨fun hmem => s.not_mayIssue_temp (h.mem_iff.mp hmem).1, ih⟩
  | label k _ ih => exact ih

/-- No name that is handed out is reserved. -/
theorem not_mem_reserved (h : s.Hands xs s') (hx : x ∈ xs) : x ∉ s.reserved :=
  (h.mem_iff.mp hx).1.1

end Hands

/-! ## Labels -/

/-- The label is issued on the way from one supply to another. -/
def IssuesLabel (s s' : Supply) (l : String) : Prop :=
  ∃ k, ∃ p ∈ LabelKind.stems k, ∃ n, s.counter k ≤ n ∧ n < s'.counter k ∧ l = p ++ toString n

/-- The labels differ and are issued on the way from one supply to another. -/
structure Issues (s s' : Supply) (ls : List String) : Prop where
  precedes : s.Precedes s'
  nodup : ls.Nodup
  issued : ∀ l ∈ ls, s.IssuesLabel s' l

namespace Issues

theorem of_precedes (h : s.Precedes s') : s.Issues s' [] :=
  ⟨h, List.nodup_nil, fun _ hl => nomatch hl⟩

theorem refl (s : Supply) : s.Issues s [] := of_precedes (.refl s)

theorem temp (s : Supply) : s.Issues s.temp.2 [] := of_precedes (.temp s)

/-- Labels issued on consecutive ways differ. -/
theorem append (h : s.Issues s' ls) (h' : s'.Issues s'' ls') : s.Issues s'' (ls ++ ls') := by
  refine ⟨h.precedes.trans h'.precedes, ?_, fun l hl => ?_⟩
  · refine List.nodup_append.mpr ⟨h.nodup, h'.nodup, ?_⟩
    rintro l hl l' hl' rfl
    obtain ⟨k, p, hp, m, -, hm, rfl⟩ := h.issued l hl
    obtain ⟨k', q, hq, n, hn, -, heq⟩ := h'.issued _ hl'
    obtain ⟨rfl, rfl⟩ := append_toString_inj (LabelKind.isStem hp) (LabelKind.isStem hq) heq
    obtain rfl := LabelKind.eq_of_mem_stems hp hq
    omega
  · rcases List.mem_append.mp hl with hl | hl
    · obtain ⟨k, p, hp, n, hn, hn', rfl⟩ := h.issued l hl
      exact ⟨k, p, hp, n, hn, Nat.lt_of_lt_of_le hn' (h'.precedes.labels k), rfl⟩
    · obtain ⟨k, p, hp, n, hn, hn', rfl⟩ := h'.issued l hl
      exact ⟨k, p, hp, n, Nat.le_trans (h.precedes.labels k) hn, hn', rfl⟩

/-- The order of the labels does not matter. -/
theorem perm (h : s.Issues s' ls) (hls : ls.Perm ls') : s.Issues s' ls' :=
  ⟨h.precedes, hls.nodup_iff.mp h.nodup, fun l hl => h.issued l (hls.mem_iff.mpr hl)⟩

/-- The labels of a construct. -/
theorem label (s : Supply) (k : LabelKind) :
    s.Issues (s.label k).2 (k.stems.map (· ++ toString (s.label k).1)) := by
  have hcounter (l : LabelKind) :
      (s.label k).2.counter l = s.counter l + if l = k then 1 else 0 := by
    cases k <;> cases l <;> rfl
  have hnumber : (s.label k).1 = s.counter k := by cases k <;> rfl
  refine ⟨.label s k, ?_, fun l hl => ?_⟩
  · refine List.Nodup.map_on ?_ ?_
    · intro p hp q hq heq
      exact (append_toString_inj (LabelKind.isStem hp) (LabelKind.isStem hq) heq).1
    · cases k <;> decide
  · obtain ⟨p, hp, rfl⟩ := List.mem_map.mp hl
    refine ⟨k, p, hp, (s.label k).1, ?_, ?_, rfl⟩
    · exact Nat.le_of_eq hnumber.symm
    · rw [hcounter, if_pos rfl, hnumber]
      exact Nat.lt_succ_self _

end Issues

end Supply

end Ir

end MiniJava
