import MiniJava.Text.Position
import MiniJava.Token

/-!
# From text to tokens

A text is cut into *pieces*: tokens, blanks, comments, and what is none of these. A piece is as long
as it can be. `pieces` loses nothing: the texts of the pieces, one behind the other, are the text.

* A blank is a run of spaces, tabs, carriage returns, line feeds and form feeds.
* A name starts with a letter, `_` or `$` and goes on with those and digits; a number is a run of
  digits. Letters and digits are those of ASCII.
* A comment runs from two slashes to the end of the line, or from slash and star to the first star
  and slash (`block_comment`). When the second kind is never closed, all the rest is one unknown
  piece.
* Any other character that begins no sign is an unknown piece of its own.
-/

namespace MiniJava

/-! ## Character classes -/

/-- The characters that only separate tokens. -/
def isBlank (c : Char) : Bool := c ∈ [' ', '\t', '\r', '\n', '\x0c']

/-- The characters that begin a name. -/
def isNameStart (c : Char) : Bool := c.isAlpha || c == '_' || c == '$'

/-- The characters that go on with a name. -/
def isNamePart (c : Char) : Bool := isNameStart c || c.isDigit

/-! ## Pieces -/

/-- What a piece of text is. -/
inductive PieceKind where
  | token (t : Token)
  | blank
  | comment
  | unknown
deriving DecidableEq, Repr, Inhabited

/-- A piece of a text, with the offset where it starts. -/
structure Piece where
  kind : PieceKind
  text : List Char
  start : Nat
deriving DecidableEq, Repr, Inhabited

/-- The bytes that a piece takes. -/
def Piece.span (p : Piece) : Span := ⟨p.start, p.start + byteLength p.text⟩

/-- How many characters it takes to leave a comment that has been opened. -/
def commentEnd? : List Char → Option Nat
  | '*' :: '/' :: _ => some 2
  | _ :: cs => (commentEnd? cs).map (· + 1)
  | [] => none

/-- What the text `c :: cs` begins with, and how many characters of `cs` belong to it. -/
def firstPiece (c : Char) (cs : List Char) : PieceKind × Nat :=
  if isBlank c then (.blank, (cs.takeWhile isBlank).length)
  else if isNameStart c then
    let more := cs.takeWhile isNamePart
    (.token (.ofName (String.ofList (c :: more))), more.length)
  else if c.isDigit then
    let more := cs.takeWhile Char.isDigit
    (.token (.integer (String.ofList (c :: more))), more.length)
  else
    match c, cs with
    | '/', '/' :: rest => (.comment, (rest.takeWhile (· != '\n')).length + 1)
    | '/', '*' :: rest =>
      match commentEnd? rest with
      | some n => (.comment, n + 1)
      | none => (.unknown, cs.length)
    | _, _ =>
      match Punct.read? c cs with
      | some (p, n) => (.token (.punct p), n)
      | none => (.unknown, 0)

/-- The pieces of a text that stands at `offset`. -/
def pieces (offset : Nat) : List Char → List Piece
  | [] => []
  | c :: cs =>
    let (kind, more) := firstPiece c cs
    let piece := ⟨kind, c :: cs.take more, offset⟩
    piece :: pieces (offset + byteLength piece.text) (cs.drop more)
termination_by cs => cs.length
decreasing_by simp only [List.length_drop, List.length_cons]; omega

/-- Nothing of the text is lost. -/
theorem pieces_text (offset : Nat) (cs : List Char) :
    (pieces offset cs).flatMap Piece.text = cs := by
  fun_induction pieces offset cs with
  | case1 => rfl
  | case2 offset c cs kind more h piece ih => simp [piece, ih]

/-- What is left of the pieces without blanks and comments: each span with its token, or with none
where the text is unknown. -/
def visiblePieces (ps : List Piece) : List (Span × Option Token) :=
  ps.filterMap fun p =>
    match p.kind with
    | .token t => some (p.span, some t)
    | .unknown => some (p.span, none)
    | .blank | .comment => none

/-! ## Lexemes -/

/-- A token with the bytes it takes. -/
structure Lexeme where
  token : Token
  span : Span
deriving DecidableEq, Repr, Inhabited

/-- The unknown pieces. -/
def unknownPieces (ps : List Piece) : List Piece := ps.filter (·.kind = .unknown)

/-- The tokens with their places. -/
def lexemes (ps : List Piece) : List Lexeme :=
  ps.filterMap fun p =>
    match p.kind with
    | .token t => some ⟨t, p.span⟩
    | _ => none

end MiniJava
