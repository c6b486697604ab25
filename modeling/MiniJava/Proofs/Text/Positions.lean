import Mathlib.Data.List.DropRight
import Mathlib.Data.Prod.Lex
import MiniJava.Proofs.Text.Spans

/-!
# Positions counted byte by byte

The place behind some bytes is found by counting: its line is 1 more than the number of line feeds
among them, its column 1 more than the number of bytes since the last of these (`placeBehind`). Each
further byte leads to a later place (`placeBehind_lt_concat`).

The lines of a text know only where lines begin. In UTF-8 the byte of a line feed belongs to no
other character, so lines begin where the bytes say (`lineStartsFrom_eq`), and the place of an
offset is the one behind the bytes in front of it (`Lines.place_eq`).

A position is such a place in 32-bit words. `Lines.Faithful` collects what is expected of positions:
they say what is counted, lead back to their offsets and come in order. This holds if and only if
all lines and columns of the text are words (`Lines.positions_of_toUTF8`); on a line of `2^32` bytes
the columns start again (`Lines.not_faithful_of_long_line`).

The offset of a position is looked for from the begin of its line on, and may lie behind the end of
that line. Then it is the offset of another position (`Lines.position_of_offset?`).
-/

namespace MiniJava

/-! ## Bytes -/

/-- The bytes of a text. -/
def bytesOf (text : List Char) : List UInt8 := text.flatMap String.utf8EncodeChar

/-- The byte that ends a line. -/
def lineFeed : UInt8 := 10

@[simp] theorem bytesOf_cons (c : Char) (cs : List Char) :
    bytesOf (c :: cs) = String.utf8EncodeChar c ++ bytesOf cs :=
  List.flatMap_cons

/-- The bytes of a text are those of the string. -/
theorem toList_toUTF8 (source : String) : source.toUTF8.data.toList = bytesOf source.toList := by
  have hencode : source.toUTF8 = source.toList.utf8Encode := by
    rw [String.toUTF8_eq_toByteArray, ← String.toByteArray_ofList, String.ofList_toList]
  rw [hencode]
  exact List.toList_data_toByteArray

theorem length_bytesOf (text : List Char) : (bytesOf text).length = byteLength text := by
  induction text with
  | nil => rfl
  | cons c cs ih =>
    rw [bytesOf_cons, List.length_append, ih, String.length_utf8EncodeChar]
    rfl

theorem lineFeed_ne_ofNat {n : Nat} (hn : 128 ≤ n) (hn' : n < 256) : lineFeed ≠ UInt8.ofNat n := by
  intro h
  have hnat := congrArg UInt8.toNat h
  rw [UInt8.toNat_ofNat', Nat.mod_eq_of_lt hn'] at hnat
  have hten : lineFeed.toNat = 10 := rfl
  omega

/-- Only the line feed has its byte: all bytes of a longer character have the highest bit. -/
theorem lineFeed_not_mem_utf8EncodeChar {c : Char} (hc : c ≠ '\n') :
    lineFeed ∉ String.utf8EncodeChar c := by
  fun_cases String.utf8EncodeChar c with
  | case1 v hv =>
    rw [List.mem_singleton]
    intro h
    have hnat := congrArg UInt8.toNat h
    rw [UInt8.toNat_ofNat', Nat.mod_eq_of_lt (by omega)] at hnat
    exact hc (Char.toNat_inj.mp hnat.symm)
  | case2 v _ _ | case3 v _ _ _ | case4 v _ _ _ =>
    simp only [List.mem_cons, List.not_mem_nil, or_false, not_or]
    and_intros <;> exact lineFeed_ne_ofNat (by omega) (by omega)

/-! ## Where lines begin -/

/-- The offsets just behind the line feeds of `bytes`, when `bytes` stand at `offset`. -/
def beginsFrom (offset : Nat) : List UInt8 → List Nat
  | [] => []
  | b :: bytes =>
    if b = lineFeed then (offset + 1) :: beginsFrom (offset + 1) bytes
    else beginsFrom (offset + 1) bytes

section Begins

variable {offset : Nat} {bytes : List UInt8}

theorem beginsFrom_append (offset : Nat) (bytes bytes' : List UInt8) :
    beginsFrom offset (bytes ++ bytes') =
      beginsFrom offset bytes ++ beginsFrom (offset + bytes.length) bytes' := by
  induction bytes generalizing offset with
  | nil => rfl
  | cons b bytes ih =>
    simp only [List.cons_append, beginsFrom, ih, List.length_cons, Nat.add_assoc, Nat.add_comm 1]
    split <;> rfl

theorem length_beginsFrom (offset : Nat) (bytes : List UInt8) :
    (beginsFrom offset bytes).length = bytes.count lineFeed := by
  induction bytes generalizing offset with
  | nil => rfl
  | cons b bytes ih =>
    rw [List.count_cons, ← ih (offset + 1), beginsFrom]
    by_cases hb : b = lineFeed <;> simp [hb]

theorem beginsFrom_eq_nil (h : lineFeed ∉ bytes) : beginsFrom offset bytes = [] := by
  rw [← List.length_eq_zero_iff, length_beginsFrom, List.count_eq_zero]
  exact h

theorem mem_beginsFrom {start : Nat} (h : start ∈ beginsFrom offset bytes) :
    offset < start ∧ start ≤ offset + bytes.length := by
  induction bytes generalizing offset with
  | nil => cases h
  | cons b bytes ih =>
    rw [List.length_cons]
    have hrest (h : start ∈ beginsFrom (offset + 1) bytes) := ih h
    unfold beginsFrom at h
    split at h
    · rcases List.mem_cons.mp h with rfl | h
      · omega
      · have := hrest h
        omega
    · have := hrest h
      omega

/-- The lines that begin up to some offset are those of the bytes in front of it. -/
theorem takeWhile_beginsFrom (offset n : Nat) (bytes : List UInt8) :
    (beginsFrom offset bytes).takeWhile (· ≤ offset + n) = beginsFrom offset (bytes.take n) := by
  conv => lhs; rw [← List.take_append_drop n bytes, beginsFrom_append]
  rw [List.takeWhile_append_of_pos]
  · by_cases hn : n ≤ bytes.length
    · have hnil : (beginsFrom (offset + (bytes.take n).length) (bytes.drop n)).takeWhile
          (· ≤ offset + n) = [] := by
        rw [List.length_take_of_le hn]
        cases hbegins : beginsFrom (offset + n) (bytes.drop n) with
        | nil => rfl
        | cons start later =>
          have hstart : start ∈ beginsFrom (offset + n) (bytes.drop n) :=
            hbegins ▸ List.mem_cons_self
          have hlt := (mem_beginsFrom hstart).1
          exact List.takeWhile_cons_of_neg (by simpa using hlt)
      rw [hnil, List.append_nil]
    · rw [List.drop_eq_nil_of_le (by omega)]
      exact List.append_nil _
  · intro start hstart
    have hle := (mem_beginsFrom hstart).2
    have hlength := bytes.length_take_le n
    exact decide_eq_true (by omega)

/-- The last line begins behind the last line feed. -/
theorem getLast?_beginsFrom (offset : Nat) (bytes : List UInt8) :
    (beginsFrom offset bytes).getLast?.getD offset +
      (bytes.rtakeWhile (· != lineFeed)).length = offset + bytes.length := by
  induction bytes using List.reverseRecOn with
  | nil => rfl
  | append_singleton bytes b ih =>
    rw [beginsFrom_append, List.rtakeWhile_concat, List.length_append, List.length_singleton]
    by_cases hb : b = lineFeed
    · subst hb
      simp [beginsFrom, Nat.add_assoc]
    · have hb' : (b != lineFeed) = true := bne_iff_ne.mpr hb
      simp only [beginsFrom, hb, if_false, List.append_nil, hb', if_true, List.length_append,
        List.length_singleton]
      omega

/-- **The lines of a text begin where its bytes say.** -/
theorem lineStartsFrom_eq (offset : Nat) (text : List Char) :
    lineStartsFrom offset text = beginsFrom offset (bytesOf text) := by
  induction text generalizing offset with
  | nil => rfl
  | cons c cs ih =>
    rw [bytesOf_cons, beginsFrom_append, String.length_utf8EncodeChar, ← ih, lineStartsFrom]
    by_cases hc : c = '\n'
    · subst hc
      rfl
    · rw [if_neg hc, beginsFrom_eq_nil (lineFeed_not_mem_utf8EncodeChar hc), List.nil_append]

end Begins

/-! ## Counting -/

/-- The line and the column behind some bytes, counted from 1: a line for each line feed, and a
column for each byte since the last of them. They are ordered line by line. -/
def placeBehind (bytes : List UInt8) : Nat ×ₗ Nat :=
  toLex (1 + bytes.count lineFeed, 1 + (bytes.rtakeWhile (· != lineFeed)).length)

/-- A further byte leads to a later place. -/
theorem placeBehind_lt_concat (bytes : List UInt8) (b : UInt8) :
    placeBehind bytes < placeBehind (bytes ++ [b]) := by
  rw [placeBehind, placeBehind, Prod.Lex.toLex_lt_toLex, List.count_append, List.rtakeWhile_concat]
  by_cases hb : b = lineFeed
  · left
    simp [hb]
  · right
    have hb' : (b != lineFeed) = true := bne_iff_ne.mpr hb
    simp [hb, hb']

theorem placeBehind_take_lt {bytes : List UInt8} {m n : Nat} (h : m < n) (hn : n ≤ bytes.length) :
    placeBehind (bytes.take m) < placeBehind (bytes.take n) := by
  have hstep (k : Nat) (hk : k < bytes.length) :
      placeBehind (bytes.take k) < placeBehind (bytes.take (k + 1)) := by
    rw [List.take_succ_eq_append_getElem hk]
    exact placeBehind_lt_concat _ _
  induction n, h using Nat.le_induction with
  | base => exact hstep m hn
  | succ n _ ih => exact (ih (by omega)).trans (hstep n hn)

/-- The position comes first: on an earlier line, or in an earlier column of the same line. -/
def Position.Before (p q : Position) : Prop :=
  p.line < q.line ∨ p.line = q.line ∧ p.column < q.column

/-! ## Positions of offsets -/

namespace Lines

/-- The place of an offset is the one behind the bytes in front of it. -/
theorem place_eq (text : List Char) (offset : Nat) :
    (toLex ((ofText text).lineOf offset, (ofText text).columnOf offset) : Nat ×ₗ Nat) =
      placeBehind ((bytesOf text).take offset) := by
  have hsize : (ofText text).size = (bytesOf text).length := (length_bytesOf text).symm
  have hlater : (ofText text).later = beginsFrom 0 (bytesOf text) := lineStartsFrom_eq 0 text
  have htake : (bytesOf text).take (min offset (bytesOf text).length) =
      (bytesOf text).take offset := List.take_eq_take_min.symm
  have hbefore := takeWhile_beginsFrom 0 (min offset (bytesOf text).length) (bytesOf text)
  have hlast := getLast?_beginsFrom 0 ((bytesOf text).take offset)
  simp only [Nat.zero_add, htake, List.length_take] at hbefore hlast
  unfold lineOf columnOf before placeBehind
  simp only [hsize, hlater, hbefore, length_beginsFrom, EmbeddingLike.apply_eq_iff_eq,
    Prod.mk.injEq]
  omega

theorem lineOf_eq (text : List Char) (offset : Nat) :
    (ofText text).lineOf offset = 1 + ((bytesOf text).take offset).count lineFeed :=
  congrArg (fun place => (ofLex place).1) (place_eq text offset)

theorem columnOf_eq (text : List Char) (offset : Nat) :
    (ofText text).columnOf offset =
      1 + (((bytesOf text).take offset).rtakeWhile (· != lineFeed)).length :=
  congrArg (fun place => (ofLex place).2) (place_eq text offset)

/-- All lines and columns of a text are 32-bit words. -/
def Fit (ls : Lines) : Prop := ∀ offset, ls.FitsAt offset

/-- In a text of less than `2^32 - 1` bytes all lines and columns are 32-bit words. -/
theorem fit_of_byteLength_lt {text : List Char} (h : byteLength text < 4294967295) :
    (ofText text).Fit := by
  intro offset
  have hlength : ((bytesOf text).take offset).length ≤ byteLength text := by
    rw [← length_bytesOf]
    exact List.length_take_le' _ _
  have hline := List.count_le_length (a := lineFeed) (l := (bytesOf text).take offset)
  have hcolumn := (List.rtakeWhile_suffix (p := (· != lineFeed)) (l := (bytesOf text).take
    offset)).length_le
  constructor
  · rw [lineOf_eq]
    omega
  · rw [columnOf_eq]
    omega

variable {text : List Char} {m n : Nat}

/-- Up to the end of the text a later offset has a later position. -/
theorem before_position (hfit : (ofText text).Fit) (h : m < n) (hn : n ≤ byteLength text) :
    ((ofText text).position m).Before ((ofText text).position n) := by
  have hplace := placeBehind_take_lt h (hn.trans_eq (length_bytesOf text).symm)
  rw [← place_eq, ← place_eq, Prod.Lex.toLex_lt_toLex] at hplace
  simp only [Position.Before, UInt32.lt_iff_toNat_lt, ← UInt32.toNat_inj, (hfit _).toNat_line,
    (hfit _).toNat_column]
  exact hplace

theorem position_min (ls : Lines) (offset : Nat) :
    ls.position (min offset ls.size) = ls.position offset := by
  rw [position, Nat.min_assoc, Nat.min_self]
  rfl

/-- Positions do not decrease with the offset. -/
theorem not_before_position (hfit : (ofText text).Fit) (h : m ≤ n) :
    ¬ ((ofText text).position n).Before ((ofText text).position m) := by
  have hasymm {p q : Position} (hpq : p.Before q) : ¬ q.Before p := by
    simp only [Position.Before, UInt32.lt_iff_toNat_lt, ← UInt32.toNat_inj] at hpq ⊢
    omega
  have hmin : min m (byteLength text) ≤ min n (byteLength text) := by omega
  rw [← position_min _ m, ← position_min _ n]
  rcases hmin.lt_or_eq with hlt | heq
  · exact hasymm (before_position hfit hlt (Nat.min_le_right _ _))
  · change ¬ Position.Before ((ofText text).position (min n (byteLength text)))
      ((ofText text).position (min m (byteLength text)))
    rw [heq]
    exact fun hself => hasymm hself hself

/-- The laws of positions: they say what is counted, they can be taken back, and they come in the
order of the offsets. -/
structure Faithful (source : String) : Prop where
  /-- There is a line for each line feed among the bytes in front of the offset, and a column for
  each byte since the last of them. -/
  counts : ∀ offset, let before := source.toUTF8.data.toList.take offset
    ((ofText source.toList).position offset).line.toNat = 1 + before.count lineFeed ∧
      ((ofText source.toList).position offset).column.toNat =
        1 + (before.rtakeWhile (· != lineFeed)).length
  back : ∀ offset ≤ source.toUTF8.data.toList.length,
    (ofText source.toList).offset? ((ofText source.toList).position offset) = some offset
  increasing : ∀ offset offset', offset < offset' → offset' ≤ source.toUTF8.data.toList.length →
    ((ofText source.toList).position offset).Before ((ofText source.toList).position offset')

theorem faithful_of_fit {source : String} (h : (ofText source.toList).Fit) : Faithful source := by
  have hlength : source.toUTF8.data.toList.length = byteLength source.toList := by
    rw [toList_toUTF8, length_bytesOf]
  constructor
  · intro offset before
    rw [(h offset).toNat_line, (h offset).toNat_column, lineOf_eq, columnOf_eq, ← toList_toUTF8]
    exact ⟨rfl, rfl⟩
  · intro offset hoffset
    rw [offset?_position (h offset), Nat.min_eq_left]
    exact hoffset.trans_eq hlength
  · exact fun _ _ hlt hle => before_position h hlt (hle.trans_eq hlength)

/-- **Positions are counted in bytes, and cut to 32-bit words.** The position of an offset has a
line for each line feed among the bytes in front of it and a column for each byte since the last of
them, as far as these numbers are words. So the laws hold exactly if all of them are, as they are in
a text of less than `2^32 - 1` bytes. -/
theorem positions_of_toUTF8 (source : String) :
    (∀ offset, (ofText source.toList).position offset =
      ⟨.ofNat (1 + (source.toUTF8.data.toList.take offset).count lineFeed),
        .ofNat (1 +
          ((source.toUTF8.data.toList.take offset).rtakeWhile (· != lineFeed)).length)⟩) ∧
    (Faithful source ↔ ∀ offset,
      1 + (source.toUTF8.data.toList.take offset).count lineFeed < 4294967296 ∧
      1 + ((source.toUTF8.data.toList.take offset).rtakeWhile (· != lineFeed)).length <
        4294967296) ∧
    (source.toUTF8.data.toList.length < 4294967295 → Faithful source) := by
  rw [toList_toUTF8]
  refine ⟨fun offset => ?_, ⟨fun h offset => ?_, fun h => ?_⟩, fun h => ?_⟩
  · rw [position_eq_ofNat, lineOf_eq, columnOf_eq]
  · obtain ⟨hline, hcolumn⟩ := h.counts offset
    rw [toList_toUTF8] at hline hcolumn
    exact ⟨hline ▸ UInt32.toNat_lt _, hcolumn ▸ UInt32.toNat_lt _⟩
  · refine faithful_of_fit fun offset => ?_
    obtain ⟨hline, hcolumn⟩ := h offset
    exact ⟨(lineOf_eq _ offset).trans_lt hline, (columnOf_eq _ offset).trans_lt hcolumn⟩
  · rw [length_bytesOf] at h
    exact faithful_of_fit (fit_of_byteLength_lt h)

/-- An empty line, a character of two bytes and the end behind a line feed. -/
theorem positions_of_toUTF8_empty_line :
    let source := "a\n\né\n"
    let ls := ofText source.toList
    source.toUTF8.data.toList.length = 6 ∧ Faithful source ∧ ls.position 4 = ⟨3, 2⟩ ∧
      ls.position 9 = ⟨4, 1⟩ ∧ ls.offset? (ls.position 6) = some 6 ∧
      (ls.position 1).Before (ls.position 2) := by
  intro source ls
  have hlength : source.toUTF8.data.toList.length = 6 := by decide +kernel
  obtain ⟨hposition, -, hfaithful⟩ := positions_of_toUTF8 source
  have hfaithful : Faithful source := hfaithful (hlength ▸ by decide)
  refine ⟨hlength, hfaithful, ?_, ?_, hfaithful.back 6 (hlength ▸ by decide),
    hfaithful.increasing 1 2 (by decide) (hlength ▸ by decide)⟩
  · rw [hposition]
    decide +kernel
  · rw [hposition]
    decide +kernel

/-! ### A long line -/

theorem offset?_eq_some {ls : Lines} {p : Position} {offset : Nat} :
    ls.offset? p = some offset ↔ 1 ≤ p.column.toNat ∧ ∃ start,
      ls.start? p.line.toNat = some start ∧ offset = start + p.column.toNat - 1 ∧
        offset ≤ ls.size := by
  unfold offset?
  by_cases hcolumn : p.column = 0
  · simp [hcolumn]
  · have hnat : p.column.toNat ≠ 0 := fun h => hcolumn (UInt32.toNat_inj.mp h)
    simp only [hcolumn, if_false, Option.bind_eq_some_iff, Nat.one_le_iff_ne_zero, ne_eq, hnat,
      not_false_eq_true, true_and, Option.ite_none_right_eq_some, Option.some.injEq]
    exact exists_congr fun start => and_congr_right fun _ =>
      ⟨fun ⟨hle, heq⟩ => ⟨heq.symm, heq ▸ hle⟩, fun ⟨heq, hle⟩ => ⟨heq ▸ hle, heq.symm⟩⟩

theorem offset?_one_one (ls : Lines) : ls.offset? ⟨1, 1⟩ = some 0 :=
  offset?_eq_some.mpr ⟨Nat.le_refl 1, 0, rfl, rfl, Nat.zero_le _⟩

/-- On a line of `2^32` bytes the columns start again at its end. In front of that there is an offset
in column 0, whose position leads nowhere. -/
theorem not_faithful_of_long_line :
    let source := String.ofList (indented 4294967296 [])
    let ls := ofText source.toList
    ls.position 4294967295 = ⟨1, 0⟩ ∧ ls.offset? (ls.position 4294967295) = none ∧
      ls.position 4294967296 = ⟨1, 1⟩ ∧ ls.offset? (ls.position 4294967296) = some 0 ∧
      ¬ Faithful source := by
  intro source ls
  have htext : source.toList = indented 4294967296 [] := String.toList_ofList
  have hls : ls = ⟨[], 4294967296⟩ := (congrArg ofText htext).trans (ofText_indented _ [])
  have hnone : ls.position 4294967295 = ⟨1, 0⟩ := hls ▸ by decide
  have hagain : ls.position 4294967296 = ⟨1, 1⟩ := hls ▸ by decide
  have hoffset : ls.offset? ⟨1, 1⟩ = some 0 := offset?_one_one ls
  refine ⟨hnone, hnone ▸ rfl, hagain, hagain ▸ hoffset, fun h => ?_⟩
  have hlength : source.toUTF8.data.toList.length = 4294967296 := by
    rw [toList_toUTF8, htext, length_bytesOf, byteLength_indented]
    rfl
  have hback : ls.offset? (ls.position 4294967296) = some 4294967296 :=
    h.back 4294967296 hlength.ge
  rw [hagain, hoffset] at hback
  cases hback

end Lines

/-! ## Offsets of positions -/

section Line

variable {b : UInt8} {front bytes : List UInt8}

theorem getElem?_zero_splitOn (bytes : List UInt8) :
    (bytes.splitOn lineFeed)[0]? = some (bytes.takeWhile (· != lineFeed)) := by
  induction bytes with
  | nil => rfl
  | cons b bytes ih =>
    rw [List.splitOn_cons_eq_if_modifyHead]
    by_cases hb : b = lineFeed
    · simp [hb]
    · rw [if_neg (by simpa using hb), List.takeWhile_cons_of_pos (by simpa using hb)]
      cases hlines : bytes.splitOn lineFeed with
      | nil => exact absurd hlines (List.splitOn_ne_nil _ _)
      | cons line lines =>
        rw [hlines] at ih
        cases ih
        rfl

/-- Bytes that end with a line feed still do behind another byte. -/
theorem rtakeWhile_cons_eq_nil (hfront : front.rtakeWhile (· != lineFeed) = [])
    (hb : front = [] → b = lineFeed) : (b :: front).rtakeWhile (· != lineFeed) = [] := by
  rw [List.rtakeWhile_eq_nil_iff] at hfront ⊢
  intro hne
  cases front with
  | nil => simp [hb rfl]
  | cons c front =>
    rw [List.getLast_cons_cons]
    exact hfront (List.cons_ne_nil _ _)

/-- Where a line begins, in bytes: as many line feeds are in front as there are lines, the last of
them directly, and the bytes of the line come up to the next. -/
theorem exists_line_of_beginsFrom {offset n start : Nat}
    (h : (offset :: beginsFrom offset bytes)[n]? = some start) :
    ∃ front rest : List UInt8, bytes = front ++ rest ∧ start = offset + front.length ∧
      front.count lineFeed = n ∧ front.rtakeWhile (· != lineFeed) = [] ∧
      (bytes.splitOn lineFeed)[n]? = some (rest.takeWhile (· != lineFeed)) := by
  induction bytes generalizing offset n with
  | nil =>
    cases n with
    | zero =>
      cases h
      exact ⟨[], [], rfl, rfl, rfl, rfl, rfl⟩
    | succ n => cases h
  | cons b bytes ih =>
    cases n with
    | zero =>
      cases h
      exact ⟨[], b :: bytes, rfl, rfl, rfl, rfl, getElem?_zero_splitOn _⟩
    | succ n =>
      rw [List.getElem?_cons_succ, beginsFrom] at h
      rw [List.splitOn_cons_eq_if_modifyHead]
      by_cases hb : b = lineFeed
      · rw [if_pos hb] at h
        obtain ⟨front, rest, rfl, rfl, hcount, hend, hline⟩ := ih h
        refine ⟨b :: front, rest, rfl, ?_, ?_, rtakeWhile_cons_eq_nil hend fun _ => hb, ?_⟩
        · rw [List.length_cons]
          omega
        · rw [hb, List.count_cons_self, hcount]
        · rw [if_pos (by simpa using hb), List.getElem?_cons_succ, hline]
      · rw [if_neg hb] at h
        obtain ⟨front, rest, rfl, rfl, hcount, hend, hline⟩ := ih (n := n + 1) h
        have hne : front ≠ [] := by
          rintro rfl
          cases hcount
        refine ⟨b :: front, rest, rfl, ?_, ?_, rtakeWhile_cons_eq_nil hend (absurd · hne), ?_⟩
        · rw [List.length_cons]
          omega
        · rw [List.count_cons_of_ne hb, hcount]
        · rw [if_neg (by simpa using hb)]
          cases hlines : (front ++ rest).splitOn lineFeed with
          | nil => exact absurd hlines (List.splitOn_ne_nil _ _)
          | cons line lines => rwa [hlines] at hline

/-- Behind bytes without a line feed one is still on the line on which they begin. -/
theorem placeBehind_append_of_not_mem (hfront : front.rtakeWhile (· != lineFeed) = [])
    (h : lineFeed ∉ bytes) :
    placeBehind (front ++ bytes) = toLex (1 + front.count lineFeed, 1 + bytes.length) := by
  have hlast : (front ++ bytes).rtakeWhile (· != lineFeed) = bytes := by
    unfold List.rtakeWhile at hfront ⊢
    rw [List.reverse_append, List.takeWhile_append_of_pos,
      List.reverse_eq_nil_iff.mp hfront, List.append_nil, List.reverse_reverse]
    intro b hb
    rw [bne_iff_ne]
    rintro rfl
    exact h (List.mem_reverse.mp hb)
  rw [placeBehind, hlast, List.count_append, List.count_eq_zero_of_not_mem h, Nat.add_zero]

end Line

/-- The first bytes are without a line feed as far as the first line goes. -/
theorem lineFeed_not_mem_take_iff {bytes : List UInt8} {n : Nat} (hn : n ≤ bytes.length) :
    lineFeed ∉ bytes.take n ↔ n ≤ (bytes.takeWhile (· != lineFeed)).length := by
  constructor
  · intro h
    rw [← List.take_append_drop n bytes, List.takeWhile_append_of_pos, List.length_append,
      List.length_take_of_le hn]
    · exact Nat.le_add_right _ _
    · intro b hb
      rw [bne_iff_ne]
      rintro rfl
      exact h hb
  · intro h hmem
    obtain ⟨rest, hrest⟩ := bytes.takeWhile_prefix (· != lineFeed)
    rw [← hrest, List.take_append_of_le_length h] at hmem
    exact absurd (List.mem_takeWhile_imp (List.mem_of_mem_take hmem)) (by simp)

namespace Lines

/-- The bytes in front of the offset of a position are those of the lines in front, and then as many
as the column says. -/
theorem exists_line_of_offset? {text : List Char} {p : Position} {offset : Nat}
    (h : (ofText text).offset? p = some offset) :
    ∃ front rest : List UInt8,
      (bytesOf text).take offset = front ++ rest.take (p.column.toNat - 1) ∧
      p.column.toNat - 1 ≤ rest.length ∧ 1 ≤ p.column.toNat ∧
      p.line.toNat = 1 + front.count lineFeed ∧ front.rtakeWhile (· != lineFeed) = [] ∧
      ((bytesOf text).splitOn lineFeed)[p.line.toNat - 1]? =
        some (rest.takeWhile (· != lineFeed)) := by
  obtain ⟨hcolumn, start, hstart, hoffset, hle⟩ := offset?_eq_some.mp h
  cases hline : p.line.toNat with
  | zero =>
    rw [hline] at hstart
    cases hstart
  | succ n =>
    rw [hline, start?, ofText, lineStartsFrom_eq] at hstart
    obtain ⟨front, rest, hbytes, hfront, hcount, hend, hrest⟩ := exists_line_of_beginsFrom hstart
    rw [Nat.zero_add] at hfront
    subst hfront
    have hsize : (ofText text).size = front.length + rest.length := by
      rw [← List.length_append, ← hbytes, length_bytesOf]
      rfl
    refine ⟨front, rest, ?_, by omega, hcolumn, by omega, hend, hrest⟩
    rw [hoffset, Nat.add_sub_assoc hcolumn, hbytes, List.take_length_add_append]

/-- **The offset of a position leads back to it if the position is on its line**, and else to a
later line: offsets are looked for up to the end of the text, not of the line. -/
theorem position_of_offset? {source : String} {p : Position} {offset : Nat}
    (h : (ofText source.toList).offset? p = some offset) :
    ∃ line, (source.toUTF8.data.toList.splitOn lineFeed)[p.line.toNat - 1]? = some line ∧
      ((ofText source.toList).position offset = p ↔ p.column.toNat ≤ line.length + 1) ∧
      (line.length + 1 < p.column.toNat →
        p.line.toNat < 1 + (source.toUTF8.data.toList.take offset).count lineFeed) := by
  rw [toList_toUTF8]
  obtain ⟨front, rest, htake, hlength, hcolumn, hline, hend, hrest⟩ := exists_line_of_offset? h
  refine ⟨_, hrest, ?_⟩
  have hlines : (ofText source.toList).lineOf offset =
      p.line.toNat + (rest.take (p.column.toNat - 1)).count lineFeed := by
    rw [lineOf_eq, htake, List.count_append, hline, Nat.add_assoc]
  rw [← lineOf_eq, hlines]
  by_cases hfeed : lineFeed ∈ rest.take (p.column.toNat - 1)
  · have hlater := List.count_pos_iff.mpr hfeed
    have hpast := mt (lineFeed_not_mem_take_iff hlength).mpr (not_not_intro hfeed)
    refine ⟨iff_of_false (fun heq => ?_) (by omega), fun _ => by omega⟩
    -- Fewer lines are passed than a word can count, so the line of the offset is another one.
    have hfew := List.count_le_length (a := lineFeed) (l := rest.take (p.column.toNat - 1))
    have hcolumn' := p.column.toNat_lt
    have hword : ((ofText source.toList).position offset).line.toNat = p.line.toNat := by rw [heq]
    rw [List.length_take_of_le hlength] at hfew
    rw [position_eq_ofNat, UInt32.toNat_ofNat', hlines] at hword
    omega
  · have hplace := place_eq source.toList offset
    have hwithin := (lineFeed_not_mem_take_iff hlength).mp hfeed
    rw [htake, placeBehind_append_of_not_mem hend hfeed, List.length_take_of_le hlength, ← hline,
      Nat.add_sub_of_le hcolumn, EmbeddingLike.apply_eq_iff_eq, Prod.mk.injEq] at hplace
    refine ⟨iff_of_true ?_ (by omega), fun _ => by omega⟩
    rw [position_eq_ofNat, hplace.1, hplace.2, UInt32.ofNat_toNat, UInt32.ofNat_toNat]

/-- The end of a line is its last position; the place behind it is on the next line. -/
theorem position_of_offset?_end :
    let ls := ofText "a\nb".toList
    ls.offset? ⟨1, 2⟩ = some 1 ∧ ls.position 1 = ⟨1, 2⟩ ∧
      ls.offset? ⟨1, 3⟩ = some 2 ∧ 1 < 1 + ("a\nb".toUTF8.data.toList.take 2).count lineFeed := by
  intro ls
  have hend : ls.offset? ⟨1, 2⟩ = some 1 := by decide +kernel
  have hpast : ls.offset? ⟨1, 3⟩ = some 2 := by decide +kernel
  have hlines : ("a\nb".toUTF8.data.toList.splitOn lineFeed)[0]? = some [97] := by decide +kernel
  obtain ⟨_, hline, hposition, _⟩ := position_of_offset? hend
  cases hlines.symm.trans hline
  obtain ⟨_, hline, _, hlater⟩ := position_of_offset? hpast
  cases hlines.symm.trans hline
  exact ⟨hend, hposition.mpr (by decide), hpast, hlater (by decide)⟩

/-- A column behind the end of its line is taken for a place on the next line. -/
theorem offset?_ne_none_behind_line :
    let ls := ofText "a\nb".toList
    ls.offset? ⟨1, 3⟩ = some 2 ∧ ls.position 2 = ⟨2, 1⟩ := by
  decide +kernel

end Lines

end MiniJava
