import MiniJava.Diagnostic.Report
import MiniJava.Proofs.Text.Lines

/-!
# Diagnostics in the order of the text

`IsSorting ds es` says of two rows of diagnostics that the first is the second in the order of the
text: line by line and column by column, behind these what has no position, and at one place the
order of the second row. What is left out of a row may be left out before or after it is sorted
(`IsSorting.filter`).

Lines and columns are 32-bit words, and in a report what has no position counts as having the last
line and column that there can be. No position is behind that one, so `Report.sorted` is the order
of the text (`isSorting_sorted`).
-/

namespace MiniJava

/-- The last line and column that 32-bit words can hold. -/
def Position.last : Position := ⟨4294967295, 4294967295⟩

namespace Diagnostic

/-- `d` may stand in front of `e` in the order of the text. A diagnostic without a position does so
only if `e` has none either, or has the very last one there can be. -/
def NotBehind (d e : Diagnostic) : Prop :=
  match d.position, e.position with
  | some p, some q => p.line < q.line ∨ p.line = q.line ∧ p.column ≤ q.column
  | none, some q => q = .last
  | _, none => True

end Diagnostic

/-- The row `ds` is `es` in the order of the text. -/
structure IsSorting (ds es : List Diagnostic) : Prop where
  /-- Both have the same members, each as often. -/
  perm : ds.Perm es
  ordered : ds.Pairwise Diagnostic.NotBehind
  /-- What stands at one place, or at none, stays in its order. -/
  stable : ∀ place : Option Position,
    ds.filter (·.position = place) = es.filter (·.position = place)

namespace IsSorting

variable {ds es : List Diagnostic}

theorem filter (h : IsSorting ds es) (p : Diagnostic → Bool) :
    IsSorting (ds.filter p) (es.filter p) where
  perm := h.perm.filter p
  ordered := h.ordered.filter p
  stable place := by
    have hcomm (l : List Diagnostic) : (l.filter p).filter (fun d => d.position = place) =
        (l.filter fun d => d.position = place).filter p := by
      rw [List.filter_filter, List.filter_filter]
      simp only [Bool.and_comm]
    rw [hcomm, hcomm, h.stable]

theorem mem_iff (h : IsSorting ds es) {d : Diagnostic} : d ∈ ds ↔ d ∈ es := h.perm.mem_iff

end IsSorting

namespace Report

variable {a b : UInt32 × UInt32}

theorem keyLe_iff : keyLe a b = true ↔ a.1 < b.1 ∨ a.1 = b.1 ∧ a.2 ≤ b.2 := by
  simp only [keyLe, Bool.or_eq_true, Bool.and_eq_true, decide_eq_true_eq, beq_iff_eq]

theorem keyLe_trans (a b c : UInt32 × UInt32) (h : keyLe a b = true) (h' : keyLe b c = true) :
    keyLe a c = true := by
  rw [keyLe_iff] at h h' ⊢
  grind

theorem keyLe_total (a b : UInt32 × UInt32) : (keyLe a b || keyLe b a) = true := by
  rw [Bool.or_eq_true, keyLe_iff, keyLe_iff]
  grind

/-- A diagnostic is not behind one with a greater key. -/
theorem notBehind_of_keyLe {d e : Diagnostic} (h : keyLe (sortKey d) (sortKey e) = true) :
    d.NotBehind e := by
  rw [keyLe_iff] at h
  unfold sortKey at h
  unfold Diagnostic.NotBehind
  cases hd : d.position with
  | none =>
    cases hq : e.position with
    | none => trivial
    | some q =>
      -- No line or column is greater than those of the last position.
      obtain ⟨line, column⟩ := q
      have hline := line.toNat_lt
      have hcolumn := column.toNat_lt
      simp only [hd, hq, UInt32.lt_iff_toNat_lt, UInt32.le_iff_toNat_le, ← UInt32.toNat_inj,
        Position.last, Position.mk.injEq, UInt32.reduceToNat] at h ⊢
      omega
  | some p =>
    cases hq : e.position with
    | none => trivial
    | some q => simpa only [hd, hq] using h

/-- **A sorted report is in the order of the text.** -/
theorem isSorting_sorted (r : Report) :
    IsSorting r.sorted.diagnostics r.diagnostics := by
  let le (a b : Diagnostic) : Bool := keyLe (sortKey a) (sortKey b)
  have trans (a b c : Diagnostic) : le a b = true → le b c = true → le a c = true :=
    keyLe_trans _ _ _
  have total (a b : Diagnostic) : (le a b || le b a) = true := keyLe_total _ _
  have hperm : (r.diagnostics.mergeSort le).Perm r.diagnostics := r.diagnostics.mergeSort_perm le
  refine ⟨hperm, ?_, fun place => ?_⟩
  · exact (List.pairwise_mergeSort trans total r.diagnostics).imp notBehind_of_keyLe
  · -- What stands at one place is in order already, so sorting keeps it as it is.
    let here (d : Diagnostic) : Bool := d.position = place
    have hkey {d e : Diagnostic} (hd : d ∈ r.diagnostics.filter here)
        (he : e ∈ r.diagnostics.filter here) : le d e = true := by
      have hd := of_decide_eq_true (List.mem_filter.mp hd).2
      have he := of_decide_eq_true (List.mem_filter.mp he).2
      have heq : sortKey d = sortKey e := by rw [sortKey, sortKey, hd, he]
      have := total d e
      simpa only [le, heq, Bool.or_self] using this
    have hsub := List.sublist_mergeSort trans total (List.pairwise_iff_forall_sublist.mpr
      fun hde => hkey (hde.subset List.mem_cons_self) (hde.subset (by simp)))
      (List.filter_sublist (l := r.diagnostics) (p := here))
    have hsub := hsub.filter here
    rw [List.filter_filter] at hsub
    simp only [Bool.and_self] at hsub
    exact (hsub.eq_of_length (hperm.filter here).length_eq.symm).symm

end Report

end MiniJava
