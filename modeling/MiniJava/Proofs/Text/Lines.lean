import Mathlib.Data.List.Induction
import Mathlib.Data.List.TakeWhile
import MiniJava.Text.Number
import MiniJava.Text.Position

/-!
# Offsets and positions

Lines and columns of an offset can be counted without bound (`Lines.lineOf`, `Lines.columnOf`). The
position of the offset has what is left of them in a 32-bit word. Where nothing is lost the position
leads back to the offset (`Lines.offset?_position`).

Blanks at the start of a text begin no line, so the lines of such a text are those of the rest of it
(`Lines.ofText_indented`).

A part of a position is written down as text and read back as it was (`readWord?_toString`).
-/

namespace MiniJava

/-- What is known has a line. -/
theorem Position.isKnown_iff (p : Position) : p.isKnown = true ↔ 1 ≤ p.line := by
  rw [isKnown, decide_eq_true_eq, UInt32.lt_iff_toNat_lt, UInt32.le_iff_toNat_le]
  rfl

/-! ## There and back -/

namespace Lines

/-- Where the lines begin that begin up to the offset, the first one left out. -/
def before (ls : Lines) (offset : Nat) : List Nat := ls.later.takeWhile (· ≤ min offset ls.size)

/-- The number of the line of an offset. -/
def lineOf (ls : Lines) (offset : Nat) : Nat := (ls.before offset).length + 1

/-- The number of the column of an offset. -/
def columnOf (ls : Lines) (offset : Nat) : Nat :=
  min offset ls.size - (ls.before offset).getLast?.getD 0 + 1

/-- A position has what is left of the line and of the column in words. -/
theorem position_eq_ofNat (ls : Lines) (offset : Nat) :
    ls.position offset = ⟨.ofNat (ls.lineOf offset), .ofNat (ls.columnOf offset)⟩ := by
  rw [lineOf, columnOf, UInt32.ofNat_add, UInt32.ofNat_add]
  rfl

/-- Line and column of the offset are 32-bit words. -/
structure FitsAt (ls : Lines) (offset : Nat) : Prop where
  line : ls.lineOf offset < 4294967296
  column : ls.columnOf offset < 4294967296

theorem FitsAt.toNat_line {ls : Lines} {offset : Nat} (h : ls.FitsAt offset) :
    (ls.position offset).line.toNat = ls.lineOf offset := by
  rw [position_eq_ofNat]
  exact UInt32.toNat_ofNat'.trans (Nat.mod_eq_of_lt h.line)

theorem FitsAt.toNat_column {ls : Lines} {offset : Nat} (h : ls.FitsAt offset) :
    (ls.position offset).column.toNat = ls.columnOf offset := by
  rw [position_eq_ofNat]
  exact UInt32.toNat_ofNat'.trans (Nat.mod_eq_of_lt h.column)

theorem FitsAt.one_le_line {ls : Lines} {offset : Nat} (h : ls.FitsAt offset) :
    1 ≤ (ls.position offset).line := by
  rw [UInt32.le_iff_toNat_le, h.toNat_line]
  exact Nat.le_add_left 1 _

theorem FitsAt.one_le_column {ls : Lines} {offset : Nat} (h : ls.FitsAt offset) :
    1 ≤ (ls.position offset).column := by
  rw [UInt32.le_iff_toNat_le, h.toNat_column]
  exact Nat.le_add_left 1 _

theorem FitsAt.isKnown {ls : Lines} {offset : Nat} (h : ls.FitsAt offset) :
    (ls.position offset).isKnown = true :=
  (ls.position offset).isKnown_iff.mpr h.one_le_line

/-- The line on which some row of lines ends begins where the last of them does. -/
theorem getElem?_length_cons {before later : List Nat} (h : before <+: later) :
    (0 :: later)[before.length]? = some (before.getLast?.getD 0) := by
  obtain ⟨after, rfl⟩ := h
  cases before using List.reverseRecOn with
  | nil => rfl
  | append_singleton before start =>
    rw [List.getLast?_append, List.length_append, List.append_assoc]
    change (0 :: (before ++ start :: after))[before.length + 1]? = _
    rw [List.getElem?_cons_succ, List.getElem?_append_right (Nat.le_refl _), Nat.sub_self]
    rfl

theorem getLast?_before_le (ls : Lines) (offset : Nat) :
    (ls.before offset).getLast?.getD 0 ≤ min offset ls.size := by
  cases h : (ls.before offset).getLast? with
  | none => exact Nat.zero_le _
  | some start =>
    have hstart : start ∈ ls.before offset := List.mem_of_getLast? h
    exact of_decide_eq_true (List.mem_takeWhile_imp hstart :)

/-- **The position of an offset leads back to it where line and column are words.** -/
theorem offset?_position {ls : Lines} {offset : Nat} (h : ls.FitsAt offset) :
    ls.offset? (ls.position offset) = some (min offset ls.size) := by
  have hcolumn : (ls.position offset).column ≠ 0 := by
    intro hzero
    have hnat := h.toNat_column
    rw [hzero, columnOf] at hnat
    cases hnat
  have hlast := ls.getLast?_before_le offset
  have hstart : ls.start? (ls.lineOf offset) = some ((ls.before offset).getLast?.getD 0) :=
    getElem?_length_cons (List.takeWhile_prefix _)
  rw [offset?, if_neg hcolumn, h.toNat_line, h.toNat_column, hstart, Option.bind_some]
  have hsum : (ls.before offset).getLast?.getD 0 + ls.columnOf offset - 1 =
      min offset ls.size := by
    rw [columnOf]
    omega
  change (if _ + _ - 1 ≤ _ then some (_ + _ - 1) else none) = _
  rw [hsum, if_pos (Nat.min_le_right _ _)]

end Lines

/-! ## Indented texts -/

/-- A text behind blanks on its first line. -/
def indented (n : Nat) (cs : List Char) : List Char := List.replicate n ' ' ++ cs

theorem byteLength_indented (n : Nat) (cs : List Char) :
    byteLength (indented n cs) = n + byteLength cs := by
  induction n with
  | zero => exact (Nat.zero_add _).symm
  | succ n ih =>
    change 1 + byteLength (indented n cs) = _
    omega

theorem lineStartsFrom_indented (offset n : Nat) (cs : List Char) :
    lineStartsFrom offset (indented n cs) = lineStartsFrom (offset + n) cs := by
  induction n generalizing offset with
  | zero => rfl
  | succ n ih =>
    change lineStartsFrom (offset + 1) (indented n cs) = _
    rw [ih, Nat.add_assoc, Nat.add_comm 1]

/-- Blanks begin no line. -/
theorem Lines.ofText_indented (n : Nat) (cs : List Char) :
    ofText (indented n cs) = ⟨lineStartsFrom n cs, n + byteLength cs⟩ := by
  rw [ofText, lineStartsFrom_indented, byteLength_indented, Nat.zero_add]

/-! ## Words as text -/

theorem readDigits?_toDigits (n : Nat) : readDigits? (Nat.toDigits 10 n) = some n := by
  have hne : (Nat.toDigits 10 n).isEmpty = false := by
    rw [List.isEmpty_eq_false_iff]
    exact Nat.toDigits_ne_nil
  have hdigits : (Nat.toDigits 10 n).all Char.isDigit = true :=
    List.all_eq_true.mpr fun c hc => Nat.isDigit_of_mem_toDigits (by decide) (by decide) hc
  rw [readDigits?, hne, hdigits]
  exact congrArg some (Nat.ofDigitChars_toDigits (by decide) (by decide))

/-- A number is read back from its text. -/
theorem readNatural?_toString (n : Nat) : readNatural? (toString n) = some n := by
  have htext : (toString n).toList = Nat.toDigits 10 n := by
    rw [Nat.toString_eq_repr, Nat.toList_repr]
  unfold readNatural?
  rw [htext]
  split
  · -- A number is not written with a sign.
    rename_i cs hplus
    have hdigit : ('+' : Char).isDigit = true :=
      Nat.isDigit_of_mem_toDigits (by decide) (by decide) (hplus ▸ List.mem_cons_self)
    cases hdigit
  · exact readDigits?_toDigits n

/-- A word is read back from its text. -/
theorem readWord?_toString (w : UInt32) : readWord? (toString w) = some w := by
  change (readNatural? (toString w.toNat)).bind _ = some w
  rw [readNatural?_toString, Option.bind_some, if_pos w.toNat_lt, UInt32.ofNat_toNat]

end MiniJava
