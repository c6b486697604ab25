import MiniJava.Token.Lexer

/-!
# Where parsing got stuck

A `Failure` (`ParserError`) says at which token no rule fitted and which tokens would have. Of the
failures met on the way the furthest one is kept: `Failure.furthest x y` is the one at the greater
index, and of two at the same index it is `x`, which then also expects what `y` expects.

`furthest` is associative, so it does not matter in which order the failures of a sequence are
combined, only which stands in front of which.
-/

namespace MiniJava

/-- What could stand at a place: a token, or the end of the text. -/
inductive Expected where
  | token (t : Token)
  | endOfInput
deriving DecidableEq, Repr, Inhabited

/-- How a message refers to it. -/
def Expected.describe : Expected → String
  | token t => t.describe
  | endOfInput => "end of input"

/-- Why parsing stopped. -/
inductive Cause where
  /-- No rule fits this token; `none` is the end of the text. -/
  | unexpected (found : Option Token)
  /-- Only `length` can be selected without arguments. -/
  | argumentsMissing (method : String)
deriving DecidableEq, Repr, Inhabited

/-- A place where no rule fits. -/
structure Failure where
  /-- The number of tokens in front of it. -/
  index : Nat
  span : Span
  cause : Cause
  expected : List Expected
deriving DecidableEq, Repr, Inhabited

namespace Failure

/-- The failure that got further. Of two at one place the first, with the expectations of both. -/
def furthest (x y : Failure) : Failure :=
  if x.index < y.index then y
  else if y.index < x.index then x
  else { x with expected := x.expected ++ y.expected }

theorem furthest_assoc (x y z : Failure) :
    furthest (furthest x y) z = furthest x (furthest y z) := by
  unfold furthest
  grind

/-- The furthest of a failure and, behind it, one that may be missing. -/
def furthest? (x : Failure) : Option Failure → Failure
  | some y => furthest x y
  | none => x

/-- Combine the furthest failure so far with that of the next step, which stands in front. -/
def merge : (old new : Option Failure) → Option Failure
  | none, new => new
  | some old, none => some old
  | some old, some new => some (furthest new old)

theorem merge_none (a : Option Failure) : merge a none = a := by
  cases a <;> rfl

theorem none_merge (a : Option Failure) : merge none a = a := rfl

theorem merge_assoc (a b c : Option Failure) : merge (merge a b) c = merge a (merge b c) := by
  cases a <;> cases b <;> cases c <;> simp [merge, furthest_assoc]

theorem furthest?_merge (x : Failure) (a b : Option Failure) :
    x.furthest? (merge a b) = (x.furthest? b).furthest? a := by
  cases a <;> cases b <;> simp [merge, furthest?, furthest_assoc]

/-- The distinct texts of what is expected, in order. -/
def expectedTexts (x : Failure) : List String :=
  ((x.expected.map Expected.describe).mergeSort fun a b => decide (a ≤ b)).eraseReps

/-- The message for a failure. -/
def message (x : Failure) : String :=
  match x.cause with
  | .argumentsMissing method => "expected '(' after '." ++ method ++ "'"
  | .unexpected found =>
    let found := match found with
      | some t => t.describe
      | none => "end of input"
    let texts := x.expectedTexts
    if texts.isEmpty then "unexpected " ++ found
    else "unexpected " ++ found ++ ", expected " ++ String.intercalate ", " texts

end Failure

end MiniJava
