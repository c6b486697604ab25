/-!
# Places in a source text

A place is named in two ways. An *offset* counts the bytes of the UTF-8 text before it, and a
`Span` is the half-open interval between two offsets. A `Position` is a line and a column, both
counted from 1, the column in bytes; line 0 stands for "unknown".

`Lines` holds where the lines of one text begin (`LineIndex`) and converts both ways:
`Lines.position` reads the position of an offset, `Lines.offset?` the offset of a position. A line
ends with its line feed, so the offset just behind a line feed is column 1 of the next line.

Offsets are unbounded. Lines and columns are 32-bit words, and `Lines.position` cuts what it counts
to a word before it adds 1: behind `2^32 - 1` line feeds, or as many bytes of one line, it yields 0.
-/

namespace MiniJava

/-! ## Spans -/

/-- The bytes from `start` up to, and not including, `stop`. -/
structure Span where
  start : Nat
  stop : Nat
deriving DecidableEq, Repr, Inhabited

namespace Span

/-- The number of bytes covered; none when the ends are crossed. -/
def length (s : Span) : Nat := s.stop - s.start

/-- Nothing is covered. -/
def isEmpty (s : Span) : Bool := s.stop ≤ s.start

/-- The least span that covers both. -/
def merge (s t : Span) : Span := ⟨min s.start t.start, max s.stop t.stop⟩

/-- The two ends with two dots between them. -/
def text (s : Span) : String := toString s.start ++ ".." ++ toString s.stop

end Span

/-! ## Positions -/

/-- A line and a column counted from 1. Line 0 means that the place is unknown. -/
structure Position where
  line : UInt32
  column : UInt32
deriving DecidableEq, Repr, Inhabited

/-- A part of a position is a number. -/
instance coeWordNat : Coe UInt32 Nat := ⟨UInt32.toNat⟩

/-- A number is cut where a part of a position is asked for. -/
instance coeNatWord : Coe Nat UInt32 := ⟨UInt32.ofNat⟩

namespace Position

/-- The place is not known. -/
def unknown : Position := ⟨0, 0⟩

/-- A known position has a line. -/
def isKnown (p : Position) : Bool := 0 < p.line

/-- Line and column with a colon between them. -/
def text (p : Position) : String := toString p.line ++ ":" ++ toString p.column

end Position

/-! ## The lines of a text -/

/-- The number of bytes that a list of characters takes in UTF-8. -/
def byteLength (cs : List Char) : Nat := cs.foldr (fun c n => c.utf8Size + n) 0

/-- The offsets just behind the line feeds of `cs`, when `cs` stands at `offset`. -/
def lineStartsFrom (offset : Nat) : List Char → List Nat
  | [] => []
  | c :: cs =>
    let next := offset + c.utf8Size
    if c = '\n' then next :: lineStartsFrom next cs else lineStartsFrom next cs

/-- Where the lines of a text begin. The first begins at offset 0; `later` lists the others in
increasing order, and `size` is the length of the whole text in bytes. -/
structure Lines where
  later : List Nat
  size : Nat
deriving Repr, Inhabited

namespace Lines

/-- The lines of a text. -/
def ofText (text : List Char) : Lines := ⟨lineStartsFrom 0 text, byteLength text⟩

/-- The offset at which the line of this number begins, lines being counted from 1. -/
def start? (ls : Lines) : Nat → Option Nat
  | 0 => none
  | line + 1 => (0 :: ls.later)[line]?

/-- The position of an offset. An offset behind the end is taken to be the end. -/
def position (ls : Lines) (offset : Nat) : Position :=
  let offset := min offset ls.size
  let before := ls.later.takeWhile (· ≤ offset)
  ⟨.ofNat before.length + 1, .ofNat (offset - before.getLast?.getD 0) + 1⟩

/-- The offset of a position: the begin of its line plus its column, unless that is behind the end
of the text. -/
def offset? (ls : Lines) (p : Position) : Option Nat :=
  if p.column = 0 then none
  else (ls.start? p.line).bind fun start =>
    let offset := start + p.column.toNat - 1
    if offset ≤ ls.size then some offset else none

end Lines

end MiniJava
