import Mathlib.Data.List.Pairwise
import MiniJava.Proofs.Text.Pieces

/-!
# Tokens and gaps

The tokens and the unknown parts of a text are some of its pieces. They follow each other without
touching the same bytes, and what they leave out are blanks and comments (`isPartition`).
-/

namespace MiniJava

/-- A part that only separates tokens: blanks, or a comment. -/
def IsGap (part after : List Char) : Prop :=
  IsBlankRun part ∨ IsLineComment part after ∨ IsBlockComment part

/-- **The spans are those of the tokens of a text and of what is unknown in it.** They mark parts of
the text, one after the other, and each byte outside them is in a gap, which shares no byte with
them. A token is spelled by its part, and no longer one begins there. What is unknown is a comment
without an end, or a character that begins nothing. -/
structure IsPartition (text : List Char) (vs : List (Span × Option Token)) : Prop where
  nonempty : ∀ v ∈ vs, v.1.start < v.1.stop
  ordered : vs.Pairwise fun v w => v.1.stop ≤ w.1.start
  within : ∀ v ∈ vs, v.1.Within text
  gaps : ∀ o < byteLength text, (∀ v ∈ vs, ¬ (v.1.start ≤ o ∧ o < v.1.stop)) →
    ∃ (s : Span) (part after : List Char), s.Marks text part after ∧ IsGap part after ∧
      s.start ≤ o ∧ o < s.stop ∧ ∀ v ∈ vs, v.1.stop ≤ s.start ∨ s.stop ≤ v.1.start
  tokens : ∀ s t, (s, some t) ∈ vs → ∃ after, s.Marks text t.text.toList after ∧
    ¬ OpensComment (t.text.toList ++ after) ∧ t.IsLongest (t.text.toList ++ after)
  unknown : ∀ s, (s, none) ∈ vs → ∃ part after, s.Marks text part after ∧
    (IsOpenComment part ∧ after = [] ∨ ∃ c, part = [c] ∧ IsStray c after)

variable {text : List Char} {ps : List Piece} {p q : Piece} {s : Span} {t : Token}

/-! ## Visible pieces -/

theorem mem_visiblePieces_some :
    (s, some t) ∈ visiblePieces ps ↔ ∃ p ∈ ps, p.kind = .token t ∧ p.span = s := by
  simp only [visiblePieces, List.mem_filterMap]
  refine exists_congr fun p => and_congr_right fun _ => ?_
  cases p.kind <;> simp [and_comm]

theorem mem_visiblePieces_none :
    (s, none) ∈ visiblePieces ps ↔ ∃ p ∈ ps, p.kind = .unknown ∧ p.span = s := by
  simp only [visiblePieces, List.mem_filterMap]
  refine exists_congr fun p => and_congr_right fun _ => ?_
  cases p.kind <;> simp

/-- What is visible is a token or unknown. -/
theorem exists_of_mem_visiblePieces {v : Span × Option Token} (hv : v ∈ visiblePieces ps) :
    ∃ p ∈ ps, p.span = v.1 ∧ p.kind ≠ .blank ∧ p.kind ≠ .comment := by
  obtain ⟨s, _ | t⟩ := v
  · obtain ⟨p, hp, hkind, hspan⟩ := mem_visiblePieces_none.mp hv
    exact ⟨p, hp, hspan, by simp [hkind]⟩
  · obtain ⟨p, hp, hkind, hspan⟩ := mem_visiblePieces_some.mp hv
    exact ⟨p, hp, hspan, by simp [hkind]⟩

/-! ## The pieces of a text -/

theorem exists_fitsIn (hp : p ∈ pieces 0 text) : ∃ after, p.FitsIn text after :=
  fitsIn_of_mem_pieces [] text p hp

theorem Piece.FitsIn.start_lt_stop {after : List Char} (h : p.FitsIn text after) :
    p.span.start < p.span.stop := by
  obtain ⟨c, cs, htext⟩ := List.exists_cons_of_ne_nil h.ne_nil
  have hpos := c.utf8Size_pos
  change p.start < p.start + byteLength p.text
  rw [htext]
  change p.start < p.start + (c.utf8Size + byteLength cs)
  omega

/-- Different pieces of a text share no byte. -/
theorem eq_or_disjoint_of_mem_pieces (hp : p ∈ pieces 0 text) (hq : q ∈ pieces 0 text) :
    p = q ∨ p.span.stop ≤ q.span.start ∨ q.span.stop ≤ p.span.start := by
  have hordered := pieces_ordered 0 text
  exact List.Pairwise.forall_of_forall_of_flip
    (R := fun p q : Piece => p = q ∨ p.span.stop ≤ q.span.start ∨ q.span.stop ≤ p.span.start)
    (fun _ _ => .inl rfl) (hordered.imp fun h => .inr (.inl h))
    (hordered.imp fun h => .inr (.inr h)) hp hq

/-- A blank or a comment of a text is a gap between what is visible. -/
theorem disjoint_of_mem_visiblePieces (hp : p ∈ pieces 0 text)
    (hkind : p.kind = .blank ∨ p.kind = .comment) :
    ∀ v ∈ visiblePieces (pieces 0 text), v.1.stop ≤ p.span.start ∨ p.span.stop ≤ v.1.start := by
  intro v hv
  obtain ⟨q, hq, hspan, hblank, hcomment⟩ := exists_of_mem_visiblePieces hv
  rw [← hspan]
  rcases eq_or_disjoint_of_mem_pieces hq hp with rfl | hdisjoint
  · rcases hkind with hkind | hkind
    · exact absurd hkind hblank
    · exact absurd hkind hcomment
  · exact hdisjoint

/-- **The visible pieces of a text are its tokens and what is unknown in it.** -/
theorem isPartition_visiblePieces (text : List Char) :
    IsPartition text (visiblePieces (pieces 0 text)) := by
  have piece {v : Span × Option Token} (hv : v ∈ visiblePieces (pieces 0 text)) :
      ∃ p ∈ pieces 0 text, p.span = v.1 := by
    obtain ⟨p, hp, hspan, -⟩ := exists_of_mem_visiblePieces hv
    exact ⟨p, hp, hspan⟩
  refine ⟨fun v hv => ?_, ?_, fun v hv => ?_, fun o ho hout => ?_, fun s t hv => ?_, fun s hv => ?_⟩
  · obtain ⟨p, hp, hspan⟩ := piece hv
    obtain ⟨after, hfits⟩ := exists_fitsIn hp
    exact hspan ▸ hfits.start_lt_stop
  · refine List.pairwise_filterMap.mpr ((pieces_ordered 0 text).imp fun {p q} hpq v hv w hw => ?_)
    split at hv <;> cases hv <;> split at hw <;> cases hw <;> exact hpq
  · obtain ⟨p, hp, hspan⟩ := piece hv
    exact hspan ▸ pieces_within [] text p hp
  · obtain ⟨p, hp, hstart, hstop⟩ := exists_piece_of_lt (Nat.zero_le o) (by rwa [Nat.zero_add])
    obtain ⟨after, hfits⟩ := exists_fitsIn hp
    have hgap := hfits.fits
    cases hkind : p.kind with
    | token t =>
      exact absurd ⟨hstart, hstop⟩ (hout _ (mem_visiblePieces_some.mpr ⟨p, hp, hkind, rfl⟩))
    | unknown =>
      exact absurd ⟨hstart, hstop⟩ (hout _ (mem_visiblePieces_none.mpr ⟨p, hp, hkind, rfl⟩))
    | blank =>
      rw [hkind] at hgap
      exact ⟨p.span, p.text, after, hfits.marks, .inl hgap, hstart, hstop,
        disjoint_of_mem_visiblePieces hp (.inl hkind)⟩
    | comment =>
      rw [hkind] at hgap
      exact ⟨p.span, p.text, after, hfits.marks, .inr hgap, hstart, hstop,
        disjoint_of_mem_visiblePieces hp (.inr hkind)⟩
  · obtain ⟨p, hp, hkind, rfl⟩ := mem_visiblePieces_some.mp hv
    obtain ⟨after, -, hmarks, hfits⟩ := exists_fitsIn hp
    rw [hkind] at hfits
    obtain ⟨htext, hcomment, hlongest⟩ := hfits
    rw [← htext] at hmarks hcomment hlongest
    exact ⟨after, hmarks, hcomment, hlongest⟩
  · obtain ⟨p, hp, hkind, rfl⟩ := mem_visiblePieces_none.mp hv
    obtain ⟨after, -, hmarks, hfits⟩ := exists_fitsIn hp
    rw [hkind] at hfits
    exact ⟨p.text, after, hmarks, hfits⟩

end MiniJava
