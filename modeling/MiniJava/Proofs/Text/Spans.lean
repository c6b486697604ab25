import MiniJava.Proofs.Text.Lines
import MiniJava.Token.Lexer

/-!
# Spans of a text

An offset lies on a boundary of a text if it is the length of some of its first characters; then it
is not behind the end (`IsBoundary.le`). A span lies within a text if it does not end before it
starts and both of its ends are boundaries.

The pieces of a text lie within it (`pieces_within`), each behind those in front of it
(`pieces_ordered`). The tokens are pieces, so this holds of them as well (`lexemes_ordered`).
-/

namespace MiniJava

/-! ## Boundaries -/

theorem byteLength_append (cs ds : List Char) :
    byteLength (cs ++ ds) = byteLength cs + byteLength ds := by
  induction cs with
  | nil => exact (Nat.zero_add _).symm
  | cons c cs ih => exact (congrArg (c.utf8Size + ·) ih).trans (Nat.add_assoc ..).symm

/-- Some of the first characters of the text take so many bytes. -/
def IsBoundary (text : List Char) (offset : Nat) : Prop :=
  ∃ before, before <+: text ∧ byteLength before = offset

theorem IsBoundary.le {text : List Char} {offset : Nat} (h : IsBoundary text offset) :
    offset ≤ byteLength text := by
  obtain ⟨before, ⟨after, rfl⟩, rfl⟩ := h
  rw [byteLength_append]
  exact Nat.le_add_right _ _

theorem IsBoundary.end (text : List Char) : IsBoundary text (byteLength text) :=
  ⟨text, List.prefix_rfl, rfl⟩

/-- A span from one boundary of the text to another that is not in front of it. -/
structure Span.Within (text : List Char) (s : Span) : Prop where
  le : s.start ≤ s.stop
  start : IsBoundary text s.start
  stop : IsBoundary text s.stop

/-! ## Pieces -/

/-- The pieces of what follows in a text. -/
theorem pieces_within (before cs : List Char) :
    ∀ p ∈ pieces (byteLength before) cs, p.span.Within (before ++ cs) := by
  generalize hoffset : byteLength before = offset
  fun_induction pieces offset cs generalizing before with
  | case1 => exact List.forall_mem_nil _
  | case2 offset c cs kind more hfirst piece ih =>
    subst hoffset
    have hcs : piece.text ++ cs.drop more = c :: cs := by
      rw [List.cons_append, List.take_append_drop]
    have hlength : byteLength (before ++ piece.text) = byteLength before + byteLength piece.text :=
      byteLength_append _ _
    refine List.forall_mem_cons.mpr ⟨⟨Nat.le_add_right _ _, ?_, ?_⟩, ?_⟩
    · exact ⟨before, List.prefix_append _ _, rfl⟩
    · refine ⟨before ++ piece.text, ?_, hlength⟩
      rw [← hcs, ← List.append_assoc]
      exact List.prefix_append _ _
    · have hrest := ih (before ++ piece.text) hlength
      rwa [List.append_assoc, hcs] at hrest

theorem le_start_of_mem_pieces {offset : Nat} {cs : List Char} :
    ∀ p ∈ pieces offset cs, offset ≤ p.start := by
  fun_induction pieces offset cs with
  | case1 => exact List.forall_mem_nil _
  | case2 offset c cs kind more hfirst piece ih =>
    exact List.forall_mem_cons.mpr
      ⟨Nat.le_refl _, fun p hp => Nat.le_trans (Nat.le_add_right _ _) (ih p hp)⟩

/-- Each piece ends before the next begins. -/
theorem pieces_ordered (offset : Nat) (cs : List Char) :
    (pieces offset cs).Pairwise fun p q => p.span.stop ≤ q.span.start := by
  fun_induction pieces offset cs with
  | case1 => exact .nil
  | case2 offset c cs kind more hfirst piece ih => exact .cons le_start_of_mem_pieces ih

/-! ## Tokens -/

/-- A token has the span of a piece. -/
theorem exists_piece_of_mem_lexemes {ps : List Piece} {l : Lexeme} (hl : l ∈ lexemes ps) :
    ∃ p ∈ ps, l.span = p.span := by
  obtain ⟨p, hp, hl⟩ := List.mem_filterMap.mp hl
  split at hl
  · cases hl
    exact ⟨p, hp, rfl⟩
  · cases hl

theorem lexemes_ordered (offset : Nat) (cs : List Char) :
    (lexemes (pieces offset cs)).Pairwise fun l m => l.span.stop ≤ m.span.start := by
  refine List.pairwise_filterMap.mpr ((pieces_ordered offset cs).imp fun {p q} hpq l hl m hm => ?_)
  split at hl <;> cases hl
  split at hm <;> cases hm
  exact hpq

end MiniJava
