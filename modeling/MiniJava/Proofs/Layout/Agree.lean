import Mathlib.Data.List.Forall2
import MiniJava.Proofs.Grammar.Run

/-!
# Parsers that do not look at places

A parser sees tokens with their places. Two parsers *agree* if on inputs with the same tokens they
read values that differ in their places only, leave inputs with the same tokens, and met failures
that differ in their spans only. Which part of a value is no place is said by a function on values:
`p.Agree f q` asks for values `a` and `b` with `f a = f b`.

There is one lemma for each combinator. Parsers that refer to themselves agree if their bodies agree
whenever the references do (`Agree.tie`).
-/

namespace MiniJava

/-! ## What is no place -/

/-- Two inputs have the same tokens left, and as many of them behind. -/
structure Input.SameTokens (s t : Input) : Prop where
  index : s.index = t.index
  tokens : s.tokens = t.tokens

namespace Input.SameTokens

variable {s t : Input}

theorem left (h : s.SameTokens t) : s.left = t.left := by
  rw [left_eq_length, left_eq_length, h.tokens]

theorem next? (h : s.SameTokens t) : s.next? = t.next? := by
  rw [next?_eq, next?_eq, h.tokens]

theorem advance (h : s.SameTokens t) : s.advance.SameTokens t.advance where
  index := congrArg (· + 1) h.index
  tokens := by rw [tokens_advance, tokens_advance, h.tokens]

end Input.SameTokens

namespace Failure

/-- A failure without its span. -/
def unplaced (x : Failure) : Failure := { x with span := ⟨0, 0⟩ }

/-- The span does not show in the message. -/
theorem message_unplaced (x : Failure) : x.unplaced.message = x.message := rfl

theorem unplaced_furthest (x y : Failure) :
    (furthest x y).unplaced = furthest x.unplaced y.unplaced := by
  unfold furthest unplaced
  grind

theorem unplaced_furthest? (x : Failure) (a : Option Failure) :
    (x.furthest? a).unplaced = x.unplaced.furthest? (a.map unplaced) := by
  cases a with
  | none => rfl
  | some y => exact unplaced_furthest x y

theorem map_unplaced_merge (a b : Option Failure) :
    (merge a b).map unplaced = merge (a.map unplaced) (b.map unplaced) := by
  cases a with
  | none => rfl
  | some x =>
    cases b with
    | none => rfl
    | some y => exact congrArg some (unplaced_furthest y x)

/-- Inputs with the same tokens are stuck in the same way. -/
theorem unplaced_stuck {s t : Input} (h : s.SameTokens t) (expected : List Expected) :
    (s.stuck expected).unplaced = (t.stuck expected).unplaced := by
  simp only [unplaced, Input.stuck, h.index, h.next?]

end Failure

variable {α β γ δ : Type} {f : α → γ} {g : β → δ}

/-- Two outcomes differ in places only. -/
inductive Outcome.Agree (f : α → γ) : Outcome α → Outcome α → Prop
  | ok {a b : α} {x y : Option Failure} {r r' : Input} (value : f a = f b)
    (furthest : x.map Failure.unplaced = y.map Failure.unplaced) (rest : r.SameTokens r') :
    Agree f (.ok a x r) (.ok b y r')
  | error {x y : Failure} (failure : x.unplaced = y.unplaced) : Agree f (.error x) (.error y)

namespace Parser

/-- On inputs with the same tokens, two parsers have outcomes that differ in places only. -/
def Agree (f : α → γ) (p q : Parser α) : Prop :=
  ∀ s t : Input, s.SameTokens t → (p s).Agree f (q t)

namespace Agree

variable {p p' q q' : Parser α}

/-! ## The combinators -/

protected theorem pure {a b : α} (h : f a = f b) : Agree f (Pure.pure a) (Pure.pure b) :=
  fun _ _ hst => .ok h rfl hst

protected theorem bind {k l : α → Parser β} (h : Agree f p q)
    (hk : ∀ a b, f a = f b → Agree g (k a) (l b)) : Agree g (p >>= k) (q >>= l) := by
  intro s t hst
  change (Parser.bind p k s).Agree g (Parser.bind q l t)
  unfold Parser.bind
  match p s, q t, h s t hst with
  | _, _, .error failure => exact .error failure
  | .ok a x r, .ok b y r', .ok value furthest rest =>
    dsimp only
    match k a r, l b r', hk a b value r r' rest with
    | _, _, .error failure =>
      refine .error ?_
      rw [Failure.unplaced_furthest?, Failure.unplaced_furthest?, failure, furthest]
    | _, _, .ok value' furthest' rest' =>
      refine .ok value' ?_ rest'
      rw [Failure.map_unplaced_merge, Failure.map_unplaced_merge, furthest, furthest']

/-- The next parser depends on a value that is no place at all. -/
theorem same_bind {k l : α → Parser β} (h : Agree id p q) (hk : ∀ a, Agree g (k a) (l a)) :
    Agree g (p >>= k) (q >>= l) :=
  h.bind fun a b hab => by
    obtain rfl : a = b := hab
    exact hk a

theorem orElse (hp : Agree f p q) (hp' : Agree f p' q') : Agree f (p <|> p') (q <|> q') := by
  intro s t hst
  change (Parser.orElse p p' s).Agree f (Parser.orElse q q' t)
  unfold Parser.orElse
  match p s, q t, hp s t hst with
  | _, _, .ok value furthest rest => exact .ok value furthest rest
  | .error x, .error y, .error failure =>
    dsimp only
    match p' s, q' t, hp' s t hst with
    | _, _, .ok value furthest rest => exact .ok value furthest rest
    | _, _, .error failure' =>
      refine .error ?_
      rw [Failure.unplaced_furthest, Failure.unplaced_furthest, failure, failure']

theorem choiceAfter {ps qs : List (Parser α)} (h : List.Forall₂ (Agree f) ps qs) {x y : Failure}
    (hxy : x.unplaced = y.unplaced) : Agree f (choiceAfter x ps) (choiceAfter y qs) := by
  induction h generalizing x y with
  | nil => exact fun _ _ _ => .error hxy
  | @cons p q ps qs hpq hpqs ih =>
    intro s t hst
    have hstep := hpq s t hst
    unfold Parser.choiceAfter
    generalize p s = first at hstep ⊢
    generalize q t = second at hstep ⊢
    cases hstep with
    | ok value furthest rest => exact .ok value furthest rest
    | @error x' y' failure =>
      refine ih (x := x'.furthest x) (y := y'.furthest y) ?_ s t hst
      rw [Failure.unplaced_furthest, Failure.unplaced_furthest, failure, hxy]

theorem choice {ps qs : List (Parser α)} (hp : Agree f p q) (h : List.Forall₂ (Agree f) ps qs) :
    Agree f (choice p ps) (choice q qs) := by
  intro s t hst
  unfold Parser.choice
  match p s, q t, hp s t hst with
  | _, _, .ok value furthest rest => exact .ok value furthest rest
  | .error x, .error y, .error failure => exact choiceAfter h failure s t hst

theorem optional (h : Agree f p q) :
    Agree (Option.map f) (optional p) (optional q) := by
  intro s t hst
  unfold Parser.optional
  match p s, q t, h s t hst with
  | _, _, .ok value furthest rest => exact .ok (congrArg some value) furthest rest
  | _, _, .error failure => exact .ok rfl (congrArg some failure) hst

theorem optional_same (h : Agree id p q) : Agree id (Parser.optional p) (Parser.optional q) := by
  have h := optional h
  rwa [Option.map_id] at h

/-- Repetitions stop at the same place. -/
theorem manyFrom (h : Agree f p q) (s t : Input) (hst : s.SameTokens t) :
    (manyFrom p s).1.map f = (manyFrom q t).1.map f ∧
      (manyFrom p s).2.1.map Failure.unplaced = (manyFrom q t).2.1.map Failure.unplaced ∧
      (manyFrom p s).2.2.SameTokens (manyFrom q t).2.2 := by
  induction hn : s.left using Nat.strongRecOn generalizing s t with
  | ind n ih =>
    subst hn
    unfold Parser.manyFrom
    match p s, q t, h s t hst with
    | _, _, .error failure => exact ⟨rfl, congrArg some failure, hst⟩
    | .ok a x r, .ok b y r', .ok value furthest rest =>
      have hlt : r'.left < t.left ↔ r.left < s.left := by rw [rest.left, hst.left]
      by_cases hr : r.left < s.left
      · obtain ⟨hvalues, hfurthest, hrest⟩ := ih r.left hr r r' rest rfl
        simp only [hr, hlt.mpr hr, if_true, List.map_cons, Failure.map_unplaced_merge]
        exact ⟨by rw [value, hvalues], by rw [furthest, hfurthest], hrest⟩
      · simp only [hr, mt hlt.mp hr, if_false, List.map_cons, List.map_nil]
        exact ⟨by rw [value], furthest, rest⟩

theorem many (h : Agree f p q) : Agree (List.map f) (many p) (many q) := by
  intro s t hst
  obtain ⟨hvalues, hfurthest, hrest⟩ := manyFrom h s t hst
  exact .ok hvalues hfurthest hrest

theorem sepBy1 (h : Agree f p q) {separator : Parser Unit} (hsep : Agree id separator separator) :
    Agree (List.map f) (sepBy1 p separator) (sepBy1 q separator) :=
  h.bind fun a b hab => (many (hsep.same_bind fun _ => h)).bind fun as bs has =>
    .pure (by rw [List.map_cons, List.map_cons, hab, has])

theorem sepBy (h : Agree f p q) {separator : Parser Unit} (hsep : Agree id separator separator) :
    Agree (List.map f) (sepBy p separator) (sepBy q separator) := by
  refine (optional (sepBy1 h hsep)).bind fun as? bs? has => .pure ?_
  cases as? <;> cases bs? <;> simp_all

theorem tryMap {k : α → Except Cause β} (h : Agree f p q)
    (hk : ∀ a b, f a = f b → (k a).map g = (k b).map g) : Agree g (tryMap p k) (tryMap q k) := by
  intro s t hst
  unfold Parser.tryMap
  match p s, q t, h s t hst with
  | _, _, .error failure => exact .error failure
  | .ok a x r, .ok b y r', .ok value furthest rest =>
    have hab := hk a b value
    dsimp only
    cases ha : k a <;> cases hb : k b <;> rw [ha, hb] at hab
    · cases hab
      exact .error (by simp only [Failure.unplaced, rest.index])
    · cases hab
    · cases hab
    · exact .ok (Except.ok.inj hab) furthest rest

/-- Parsers that refer to themselves agree if their bodies do whenever the references do. -/
theorem tie {body body' : Parser α → Parser α}
    (h : ∀ p q, Agree f p q → Agree f (body p) (body' q)) : Agree f (tie body) (tie body') := by
  intro s t hst
  induction hn : s.left using Nat.strongRecOn generalizing s t with
  | ind n ih =>
    subst hn
    rw [Parser.tie, Parser.tie]
    refine h _ _ ?_ s t hst
    intro s' t' hst'
    by_cases hlt : s'.left < s.left
    · have hlt' : t'.left < t.left := by rwa [← hst'.left, ← hst.left]
      simp only [hlt, hlt', if_true]
      exact ih s'.left hlt s' t' hst' rfl
    · have hlt' : ¬t'.left < t.left := by rwa [← hst'.left, ← hst.left]
      simp only [hlt, hlt', if_false]
      exact .error (Failure.unplaced_stuck hst' [])

/-! ## Tokens -/

theorem satisfy (expected : List Expected) (k : Token → Option α) :
    Agree id (satisfy expected k) (satisfy expected k) := by
  intro s t hst
  unfold Parser.satisfy
  rw [hst.next?]
  cases t.next?.bind k with
  | none => exact .error (Failure.unplaced_stuck hst expected)
  | some a => exact .ok rfl rfl hst.advance

theorem keyword (k : Keyword) : Agree id (keyword k) (keyword k) := satisfy _ _

theorem punct (p : Punct) : Agree id (punct p) (punct p) := satisfy _ _

theorem ident : Agree id ident ident := satisfy _ _

theorem endOfInput : Agree id endOfInput endOfInput := by
  intro s t hst
  unfold Parser.endOfInput
  rw [hst.next?]
  cases t.next? with
  | none => exact .ok rfl rfl hst
  | some _ => exact .error (Failure.unplaced_stuck hst _)

/-- The place of the next token is a place and nothing else. -/
theorem here_bind {k l : Nat → Parser β} (h : ∀ p q, Agree g (k p) (l q)) :
    Agree g (here >>= k) (here >>= l) := by
  have hhere : Agree (fun _ => ()) here here := fun _ _ hst => .ok rfl rfl hst
  exact hhere.bind fun p q _ => h p q

theorem between (left right : Punct) (h : Agree f p q) :
    Agree f (between left right p) (between left right q) :=
  (punct left).same_bind fun _ => h.bind fun _ _ hab => (punct right).same_bind fun _ => .pure hab

end Agree

end Parser

end MiniJava
