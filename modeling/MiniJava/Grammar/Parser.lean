import MiniJava.Grammar.Failure

/-!
# Parsers

A `Parser α` reads a value from the front of a list of tokens. Besides the value and the rest it
returns the furthest failure met on the way, so that a later failure can mention what was still
possible here.

Parsers form a monad: `p >>= f` runs `p`, then the parser that `f` makes of its value. The monad
laws hold because it does not matter how failures that follow each other are grouped
(`Failure.merge_assoc` and `Failure.furthest?_merge`).

The other combinators are the choice of the first parser that fits (`orElse`, `choice`), the
optional parser (`optional`), repetition (`many`, `sepBy`, `sepBy1`) and a condition on what was
read (`tryMap`). A choice that succeeds forgets the failures of the alternatives in front of it. A
parser that refers to itself is made by `tie`, and may do so only behind at least one token.
-/

namespace MiniJava

/-- The tokens that are left, and where the text ends. -/
structure Input where
  /-- The number of tokens already read. -/
  index : Nat
  rest : List Lexeme
  endOffset : Nat
  /-- The number of tokens that are left. It is at hand, because every repetition asks for it. -/
  left : Nat := rest.length
  left_eq : left = rest.length := by rfl
deriving Repr

namespace Input

/-- All the tokens of a text of that many bytes. -/
def ofPieces (size : Nat) (ps : List Piece) : Input :=
  { index := 0, rest := lexemes ps, endOffset := size }

/-- The bytes of the next token, or the end of the text. -/
def span (s : Input) : Span :=
  match s.rest with
  | l :: _ => l.span
  | [] => ⟨s.endOffset, s.endOffset⟩

/-- The next token. -/
def next? (s : Input) : Option Token := s.rest.head?.map Lexeme.token

/-- Pass over one token. -/
def advance (s : Input) : Input :=
  { s with
    index := s.index + 1
    rest := s.rest.tail
    left := s.left - 1
    left_eq := by rw [List.length_tail, s.left_eq] }

/-- The bytes from the next token up to the last one that `later` has passed over. -/
def spanTo (s later : Input) : Span :=
  let read := s.rest.take (later.index - s.index)
  ⟨s.span.start, (read.getLast?.map (·.span.stop)).getD s.span.start⟩

/-- The failure to go on here, where `expected` would have fitted. -/
def stuck (s : Input) (expected : List Expected) : Failure :=
  ⟨s.index, s.span, .unexpected s.next?, expected⟩

end Input

/-- What a parser returns: a value, the furthest failure on the way and what is left, or the failure
that stopped it. -/
inductive Outcome (α : Type) where
  | ok (value : α) (furthest : Option Failure) (rest : Input)
  | error (failure : Failure)
deriving Repr

/-- A reader of tokens. -/
def Parser (α : Type) : Type := Input → Outcome α

namespace Parser

variable {α β : Type}

/-- Read nothing. -/
def pure (value : α) : Parser α := fun s => .ok value none s

/-- Read with `p` and then with the parser that `f` makes of the value. -/
def bind (p : Parser α) (f : α → Parser β) : Parser β := fun s =>
  match p s with
  | .error e => .error e
  | .ok value alt rest =>
    match f value rest with
    | .error e => .error (e.furthest? alt)
    | .ok value' alt' rest' => .ok value' (Failure.merge alt alt') rest'

instance : Monad Parser where
  pure := Parser.pure
  bind := Parser.bind

theorem bind_pure (p : Parser α) : p.bind Parser.pure = p := by
  funext s
  unfold Parser.bind Parser.pure
  cases p s <;> simp [Failure.merge_none]

theorem pure_bind (a : α) (f : α → Parser β) : (Parser.pure a).bind f = f a := by
  funext s
  unfold Parser.bind Parser.pure
  simp only
  cases f a s <;> simp [Failure.none_merge, Failure.furthest?]

theorem bind_assoc {γ : Type} (p : Parser α) (f : α → Parser β) (g : β → Parser γ) :
    (p.bind f).bind g = p.bind fun a => (f a).bind g := by
  funext s
  unfold Parser.bind
  cases p s with
  | error e => rfl
  | ok a alt rest =>
    simp only
    cases f a rest with
    | error e => rfl
    | ok b alt' rest' =>
      simp only
      cases g b rest' <;> simp [Failure.merge_assoc, Failure.furthest?_merge]

instance : LawfulMonad Parser := .mk' _ bind_pure pure_bind bind_assoc

/-- Read with `p`, or with `q` if `p` fails. If both fail, the failure of `p` stands in front. -/
def orElse (p q : Parser α) : Parser α := fun s =>
  match p s with
  | .ok value alt rest => .ok value alt rest
  | .error e =>
    match q s with
    | .ok value alt rest => .ok value alt rest
    | .error e' => .error (e.furthest e')

instance : OrElse (Parser α) := ⟨fun p q => p.orElse (q ())⟩

/-- Read with the first parser that fits, after `e` was the outcome of those before. -/
def choiceAfter (e : Failure) : List (Parser α) → Parser α
  | [], _ => .error e
  | p :: ps, s =>
    match p s with
    | .ok value alt rest => .ok value alt rest
    | .error e' => choiceAfter (e'.furthest e) ps s

/-- Read with the first parser that fits. If none does, later failures stand in front of earlier
ones. -/
def choice (p : Parser α) (ps : List (Parser α)) : Parser α := fun s =>
  match p s with
  | .ok value alt rest => .ok value alt rest
  | .error e => choiceAfter e ps s

/-- Read with `p`, or nothing if `p` fails. -/
def optional (p : Parser α) : Parser (Option α) := fun s =>
  match p s with
  | .ok value alt rest => .ok (some value) alt rest
  | .error e => .ok none (some e) s

/-- The values that `p` reads one behind the other, with the furthest failure and what is left. The
failure that ends the row counts, and nothing of it is consumed. -/
def manyFrom (p : Parser α) (s : Input) : List α × Option Failure × Input :=
  match p s with
  | .error e => ([], some e, s)
  | .ok value alt rest =>
    if rest.left < s.left then
      let (values, alt', rest') := manyFrom p rest
      (value :: values, Failure.merge alt alt', rest')
    else ([value], alt, rest)
termination_by s.left

/-- Read with `p` as often as it fits. -/
def many (p : Parser α) : Parser (List α) := fun s =>
  let (values, alt, rest) := manyFrom p s
  .ok values alt rest

/-- Read with `p` at least once, with a separator between each two. -/
def sepBy1 (p : Parser α) (separator : Parser Unit) : Parser (List α) := do
  let value ← p
  let values ← many (do separator; p)
  return value :: values

/-- Read with `p` any number of times, with a separator between each two. -/
def sepBy (p : Parser α) (separator : Parser Unit) : Parser (List α) := do
  let values ← optional (sepBy1 p separator)
  return values.getD []

/-- Read with `p` a value that `f` accepts. A refusal stands behind all that was read, and hides the
failures inside. -/
def tryMap (p : Parser α) (f : α → Except Cause β) : Parser β := fun s =>
  match p s with
  | .error e => .error e
  | .ok value alt rest =>
    match f value with
    | .ok value' => .ok value' alt rest
    | .error cause => .error ⟨rest.index, s.spanTo rest, cause, []⟩

/-- A parser that refers to itself. The reference reads only where a token has been read since. -/
def tie (body : Parser α → Parser α) (s : Input) : Outcome α :=
  body (fun t => if t.left < s.left then tie body t else .error (t.stuck [])) s
termination_by s.left

/-! ## Tokens -/

/-- Read one token of which `f` makes a value; `expected` would have fitted. -/
def satisfy (expected : List Expected) (f : Token → Option α) : Parser α := fun s =>
  match s.next?.bind f with
  | some value => .ok value none s.advance
  | none => .error (s.stuck expected)

/-- Read this very token. -/
def token (t : Token) : Parser Unit :=
  satisfy [.token t] fun t' => if t' = t then some () else none

/-- Read a reserved word. -/
def keyword (k : Keyword) : Parser Unit := token (.keyword k)

/-- Read a sign. -/
def punct (p : Punct) : Parser Unit := token (.punct p)

/-- Read an identifier. -/
def ident : Parser String := satisfy [] fun
  | .ident name => some name
  | _ => none

/-- Read nothing, at the end of the text only. -/
def endOfInput : Parser Unit := fun s =>
  match s.next? with
  | none => .ok () none s
  | some _ => .error (s.stuck [.endOfInput])

/-- Where the next token starts, or the end of the text. -/
def here : Parser Nat := fun s => .ok s.span.start none s

/-- Read with `p` between two signs. -/
def between (left right : Punct) (p : Parser α) : Parser α := do
  punct left
  let value ← p
  punct right
  return value

end Parser

end MiniJava
