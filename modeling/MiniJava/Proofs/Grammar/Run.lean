import MiniJava.Grammar

/-!
# Runs of parsers

`p.run s` is what `p` reads from `s` and what it leaves, when the failures met on the way are
forgotten. Each combinator has an equation for its run, and no later proof opens a combinator.

A parser that refers to itself runs its body with a `reference`, which agrees with it on shorter
inputs and reads nothing elsewhere (`run_tie`, `run_reference`).
-/

namespace MiniJava

/-! ## The tokens that are left -/

namespace Input

/-- The tokens that are left, without their places. -/
def tokens (s : Input) : List Token := s.rest.map Lexeme.token

theorem left_eq_length (s : Input) : s.left = s.tokens.length := by
  rw [tokens, List.length_map, s.left_eq]

@[simp] theorem tokens_advance (s : Input) : s.advance.tokens = s.tokens.tail := by
  exact List.map_tail

@[simp] theorem next?_eq (s : Input) : s.next? = s.tokens.head? := by
  unfold tokens next?
  cases s.rest <;> rfl

theorem left_advance {s : Input} {t : Token} {ts : List Token} (h : s.tokens = t :: ts) :
    s.advance.left + 1 = s.left := by
  simp [left_eq_length, h]

end Input

namespace Parser

variable {α β : Type}

/-! ## The equations of the combinators -/

/-- The value that is read and what is left. -/
def run (p : Parser α) (s : Input) : Option (α × Input) :=
  match p s with
  | .ok value _ rest => some (value, rest)
  | .error _ => none

/-- A run that ends well is an outcome that is no failure. -/
theorem run_eq_some_iff {p : Parser α} {s : Input} {a : α} {r : Input} :
    p.run s = some (a, r) ↔ ∃ alt, p s = .ok a alt r := by
  unfold run
  cases p s <;> simp

@[simp] theorem run_pure (a : α) (s : Input) : (pure a : Parser α).run s = some (a, s) := rfl

@[simp] theorem run_bind (p : Parser α) (f : α → Parser β) (s : Input) :
    (p >>= f).run s = (p.run s).bind fun r => (f r.1).run r.2 := by
  change Parser.run (Parser.bind p f) s = _
  unfold run Parser.bind
  cases p s with
  | error e => rfl
  | ok a alt r =>
    simp only [Option.bind_some]
    cases f a r <;> rfl

@[simp] theorem run_orElse (p q : Parser α) (s : Input) :
    (p <|> q).run s = (p.run s).or (q.run s) := by
  change Parser.run (Parser.orElse p q) s = _
  unfold run Parser.orElse
  cases p s with
  | ok a alt r => rfl
  | error e => cases q s <;> rfl

theorem run_choiceAfter (e : Failure) (ps : List (Parser α)) (s : Input) :
    (choiceAfter e ps).run s = ps.findSome? (·.run s) := by
  induction ps generalizing e with
  | nil => rfl
  | cons p ps ih =>
    rw [List.findSome?_cons]
    unfold run choiceAfter
    cases p s with
    | ok a alt r => rfl
    | error e' => exact ih _

@[simp] theorem run_choice (p : Parser α) (ps : List (Parser α)) (s : Input) :
    (choice p ps).run s = (p :: ps).findSome? (·.run s) := by
  rw [List.findSome?_cons]
  unfold run choice
  cases p s with
  | ok a alt r => rfl
  | error e => exact run_choiceAfter e ps s

@[simp] theorem run_optional (p : Parser α) (s : Input) :
    (optional p).run s = some (match p.run s with
      | some (a, r) => (some a, r)
      | none => (none, s)) := by
  unfold run optional
  cases p s <;> rfl

/-- A repetition reads once more where that reads a token at least. -/
theorem run_many (p : Parser α) (s : Input) :
    (many p).run s = match p.run s with
      | none => some ([], s)
      | some (a, r) =>
        if r.left < s.left then (many p).run r |>.map fun m => (a :: m.1, m.2)
        else some ([a], r) := by
  unfold run many
  simp only
  rw [manyFrom]
  cases p s with
  | error e => rfl
  | ok a alt r =>
    simp only
    split <;> rfl

@[simp] theorem run_tryMap (p : Parser α) (f : α → Except Cause β) (s : Input) :
    (tryMap p f).run s = (p.run s).bind fun r => (f r.1).toOption.map fun b => (b, r.2) := by
  unfold run tryMap
  cases p s with
  | error e => rfl
  | ok a alt r =>
    simp only [Option.bind_some]
    cases f a <;> rfl

/-! ### Tokens -/

@[simp] theorem run_here (s : Input) : here.run s = some (s.span.start, s) := rfl

@[simp] theorem run_satisfy (expected : List Expected) (f : Token → Option α) (s : Input) :
    (satisfy expected f).run s = (s.tokens.head?.bind f).map fun a => (a, s.advance) := by
  unfold run satisfy
  rw [Input.next?_eq]
  cases s.tokens.head?.bind f <;> rfl

theorem run_token (t : Token) (s : Input) :
    (token t).run s = if s.tokens.head? = some t then some ((), s.advance) else none := by
  rw [token, run_satisfy]
  cases s.tokens.head? with
  | none => rfl
  | some t' => by_cases h : t' = t <;> simp [h]

theorem run_endOfInput (s : Input) :
    endOfInput.run s = if s.tokens = [] then some ((), s) else none := by
  unfold run endOfInput
  rw [Input.next?_eq]
  cases s.tokens <;> rfl

/-! ## Parsers that refer to themselves -/

/-- The parser behind the reference in the body of `tie body`, when that is run on `s`. -/
def reference (body : Parser α → Parser α) (s : Input) : Parser α := fun t =>
  if t.left < s.left then tie body t else .error (t.stuck [])

theorem run_tie (body : Parser α → Parser α) (s : Input) :
    run (tie body) s = (body (reference body s)).run s := by
  unfold run
  rw [tie]
  rfl

theorem run_reference (body : Parser α → Parser α) (s t : Input) :
    (reference body s).run t = if t.left < s.left then run (tie body) t else none := by
  by_cases h : t.left < s.left <;> simp [run, reference, h]

end Parser

end MiniJava
