import MiniJava.Proofs.Grammar.Run
import MiniJava.Proofs.Grammar.Written

/-!
# What parsers read

`p.Reads R` says that whenever `p` yields a value `a`, the tokens it has passed over are a row `ts`
with `R ts a`. There is one rule for each combinator; the rules for a sequence put the rows one
behind the other, so no token can be lost or taken twice.

For a row of values `R` is mostly `Spells w S`: the tokens are the ones that `w` writes for the
value, and the value is of the sort `S`.
-/

namespace MiniJava.Parser

open Token (enclosed commaSeparated)

variable {α β : Type}

/-- The tokens that `p` passes over are related to the value it yields. -/
def Reads (p : Parser α) (R : List Token → α → Prop) : Prop :=
  ∀ s a r, p.run s = some (a, r) → ∃ ts, s.tokens = ts ++ r.tokens ∧ R ts a

/-- The value is of the sort `S`, and `w` writes it by these tokens. -/
def Spells (w : α → List Token) (S : α → Prop) (ts : List Token) (a : α) : Prop :=
  ts = w a ∧ S a

theorem intercalate_cons (sep row : List α) (rows : List (List α)) :
    sep.intercalate (row :: rows) = row ++ rows.flatMap (sep ++ ·) := by
  induction rows generalizing row with
  | nil => simp
  | cons row' rows ih => simp [List.intercalate_cons_cons, ih]

theorem mem_intercalate {a : α} {row : List α} {rows : List (List α)} (hrow : row ∈ rows)
    (ha : a ∈ row) (sep : List α) : a ∈ sep.intercalate rows := by
  cases rows with
  | nil => cases hrow
  | cons row' rows =>
    rw [intercalate_cons, List.mem_append, List.mem_flatMap]
    rcases List.mem_cons.mp hrow with rfl | hrow
    · exact .inl ha
    · exact .inr ⟨row, hrow, List.mem_append_right sep ha⟩

namespace Reads

variable {P R : List Token → α → Prop} {S : List Token → β → Prop} {p q : Parser α}

theorem mono (h : p.Reads P) (hPR : ∀ ts a, P ts a → R ts a) : p.Reads R := by
  intro s a r hrun
  obtain ⟨ts, hts, ha⟩ := h s a r hrun
  exact ⟨ts, hts, hPR ts a ha⟩

/-- A parser never goes back. -/
theorem left_le (h : p.Reads R) {s r : Input} {a : α} (hrun : p.run s = some (a, r)) :
    r.left ≤ s.left := by
  obtain ⟨ts, hts, _⟩ := h s a r hrun
  rw [s.left_eq_length, r.left_eq_length, hts, List.length_append]
  omega

/-! ### Sequences -/

protected theorem pure {a : α} (h : R [] a) : (Pure.pure a : Parser α).Reads R := by
  rintro s _ _ ⟨⟩
  exact ⟨[], rfl, h⟩

protected theorem bind {f : α → Parser β} (hp : p.Reads R)
    (hf : ∀ ts a, R ts a → (f a).Reads fun us b => S (ts ++ us) b) : (p >>= f).Reads S := by
  intro s b r' hrun
  rw [run_bind, Option.bind_eq_some_iff] at hrun
  obtain ⟨⟨a, r⟩, ha, hb⟩ := hrun
  obtain ⟨ts, hts, hR⟩ := hp s a r ha
  obtain ⟨us, hus, hS⟩ := hf ts a hR r b r' hb
  exact ⟨ts ++ us, by rw [hts, hus, List.append_assoc], hS⟩

/-- The value of the first parser, which is written by `w`. -/
theorem bind_spells {w : α → List Token} {T : α → Prop} {f : α → Parser β}
    (hp : p.Reads (Spells w T))
    (hf : ∀ a, T a → (f a).Reads fun us b => S (w a ++ us) b) : (p >>= f).Reads S := by
  refine hp.bind ?_
  rintro _ a ⟨rfl, ha⟩
  exact hf a ha

theorem here_bind {f : Nat → Parser β} (h : ∀ p, (f p).Reads S) : (here >>= f).Reads S := by
  intro s b r hrun
  rw [run_bind, run_here, Option.bind_some] at hrun
  exact h _ _ _ _ hrun

/-! ### Tokens -/

protected theorem satisfy {expected : List Expected} {f : Token → Option α}
    (h : ∀ t a, f t = some a → R [t] a) : (satisfy expected f).Reads R := by
  intro s a r hrun
  rw [run_satisfy, Option.map_eq_some_iff] at hrun
  obtain ⟨b, hb, hr⟩ := hrun
  obtain ⟨t, ht, hf⟩ := Option.bind_eq_some_iff.mp hb
  obtain ⟨ts, hts⟩ := List.head?_eq_some_iff.mp ht
  cases hr
  exact ⟨[t], by simp [hts], h t _ hf⟩

theorem satisfy_bind {expected : List Expected} {g : Token → Option α} {f : α → Parser β}
    (h : ∀ t a, g t = some a → (f a).Reads fun us b => S (t :: us) b) :
    (Parser.satisfy expected g >>= f).Reads S := by
  refine Reads.bind (R := fun ts a => ∃ t, ts = [t] ∧ g t = some a)
    (Reads.satisfy fun t a ha => ⟨t, rfl, ha⟩) ?_
  rintro _ a ⟨t, rfl, ha⟩
  exact h t a ha

protected theorem token (t : Token) : (token t).Reads fun ts _ => ts = [t] := by
  refine Reads.satisfy fun t' a h => ?_
  by_cases ht : t' = t
  · rw [ht]
  · simp [ht] at h

theorem token_bind {t : Token} {f : Unit → Parser β} (h : (f ()).Reads fun us b => S (t :: us) b) :
    (Parser.token t >>= f).Reads S := by
  refine (Reads.token t).bind ?_
  rintro _ ⟨⟩ rfl
  exact h

theorem ident_bind {f : String → Parser β}
    (h : ∀ name, (f name).Reads fun us b => S (.ident name :: us) b) : (ident >>= f).Reads S := by
  refine satisfy_bind fun t name hname => ?_
  cases t with
  | ident name' =>
    cases hname
    exact h name
  | _ => cases hname

protected theorem between {left right : Punct} (hp : p.Reads R) :
    (between left right p).Reads fun us a => ∃ ts, us = enclosed left right ts ∧ R ts a := by
  refine token_bind (hp.bind fun ts a ha => token_bind (.pure ?_))
  exact ⟨ts, rfl, ha⟩

protected theorem between_spells {left right : Punct} {w : α → List Token} {T : α → Prop}
    (hp : p.Reads (Spells w T)) :
    (between left right p).Reads (Spells (fun a => enclosed left right (w a)) T) := by
  refine (Reads.between hp).mono ?_
  rintro _ a ⟨_, rfl, rfl, ha⟩
  exact ⟨rfl, ha⟩

/-! ### Choices -/

theorem orElse (hp : p.Reads R) (hq : q.Reads R) : (p <|> q).Reads R := by
  intro s a r hrun
  rw [run_orElse, Option.or_eq_some_iff] at hrun
  rcases hrun with hrun | ⟨-, hrun⟩
  · exact hp s a r hrun
  · exact hq s a r hrun

theorem choice {ps : List (Parser α)} (h : ∀ q ∈ p :: ps, q.Reads R) : (choice p ps).Reads R := by
  intro s a r hrun
  rw [run_choice] at hrun
  obtain ⟨q, hq, hrun⟩ := List.exists_of_findSome?_eq_some hrun
  exact h q hq s a r hrun

theorem optional {R : List Token → Option α → Prop} (hp : p.Reads fun ts a => R ts (some a))
    (hnone : R [] none) : (optional p).Reads R := by
  intro s a r hrun
  rw [run_optional] at hrun
  cases h : p.run s with
  | none =>
    rw [h] at hrun
    cases hrun
    exact ⟨[], rfl, hnone⟩
  | some m =>
    rw [h] at hrun
    cases hrun
    exact hp s m.1 m.2 h

theorem tryMap {f : α → Except Cause β} (hp : p.Reads R)
    (hf : ∀ ts a b, R ts a → f a = .ok b → S ts b) : (tryMap p f).Reads S := by
  intro s b r hrun
  rw [run_tryMap, Option.bind_eq_some_iff] at hrun
  obtain ⟨⟨a, r'⟩, ha, hb⟩ := hrun
  obtain ⟨ts, hts, hR⟩ := hp s a r' ha
  cases h : f a with
  | error e => simp [h, Except.toOption] at hb
  | ok b' =>
    simp only [h, Except.toOption, Option.map_some, Option.some.injEq, Prod.mk.injEq] at hb
    obtain ⟨rfl, rfl⟩ := hb
    exact ⟨ts, hts, hf ts a b' hR h⟩

/-! ### Rows -/

variable {w : α → List Token} {T : α → Prop}

/-- A row is read when each round adds what it reads to the front. -/
theorem many {R : List Token → List α → Prop} (hp : p.Reads P) (hnil : R [] [])
    (hcons : ∀ ts a us as, P ts a → R us as → R (ts ++ us) (a :: as)) : (many p).Reads R := by
  intro s
  -- what is left gets shorter with each round
  induction hn : s.left using Nat.strongRecOn generalizing s with
  | ind n ih =>
    intro as r hrun
    rw [run_many] at hrun
    cases h : p.run s with
    | none =>
      rw [h] at hrun
      cases hrun
      exact ⟨[], rfl, hnil⟩
    | some m =>
      obtain ⟨a, r'⟩ := m
      obtain ⟨ts, hts, ha⟩ := hp s a r' h
      simp only [h] at hrun
      split at hrun
      · rename_i hlt
        obtain ⟨⟨as', r''⟩, has, heq⟩ := Option.map_eq_some_iff.mp hrun
        cases heq
        obtain ⟨us, hus, has'⟩ := ih r'.left (hn ▸ hlt) r' rfl _ _ has
        exact ⟨ts ++ us, by rw [hts, hus, List.append_assoc], hcons ts a us as' ha has'⟩
      · cases hrun
        exact ⟨ts ++ [], by rw [hts, List.append_nil], hcons ts a [] [] ha hnil⟩

theorem many_spells (hp : p.Reads (Spells w T)) :
    (Parser.many p).Reads (Spells (·.flatMap w) fun as => ∀ a ∈ as, T a) := by
  refine many hp ⟨rfl, fun _ h => nomatch h⟩ ?_
  rintro _ a _ as ⟨rfl, ha⟩ ⟨rfl, has⟩
  exact ⟨rfl, List.forall_mem_cons.mpr ⟨ha, has⟩⟩

theorem sepBy1 {t : Token} (hp : p.Reads (Spells w T)) :
    (sepBy1 p (Parser.token t)).Reads
      (Spells (fun as => [t].intercalate (as.map w)) fun as => as ≠ [] ∧ ∀ a ∈ as, T a) := by
  have hmore : (do Parser.token t; p : Parser α).Reads (Spells (fun a => t :: w a) T) :=
    token_bind (hp.mono fun ts a h => ⟨by rw [h.1], h.2⟩)
  refine hp.bind_spells fun a ha => (many_spells hmore).bind_spells fun as has => .pure ⟨?_, ?_⟩
  · simp [intercalate_cons, List.flatMap_map]
  · exact ⟨List.cons_ne_nil a as, List.forall_mem_cons.mpr ⟨ha, has⟩⟩

theorem sepBy (hp : p.Reads (Spells w T)) :
    (sepBy p (punct .comma)).Reads
      (Spells (fun as => commaSeparated (as.map w)) fun as => ∀ a ∈ as, T a) := by
  refine Reads.bind (optional (R := fun ts as? => ∀ as, as = as?.getD [] →
    Spells (fun as => commaSeparated (as.map w)) (fun as => ∀ a ∈ as, T a) ts as) ?_ ?_) ?_
  · refine (sepBy1 hp).mono ?_
    rintro ts as ⟨hts, -, has⟩ _ rfl
    exact ⟨hts, has⟩
  · rintro _ rfl
    exact ⟨rfl, fun _ h => nomatch h⟩
  · intro ts as? h
    refine .pure ?_
    rw [List.append_nil]
    exact h _ rfl

/-! ### Parsers that refer to themselves -/

/-- A parser that refers to itself reads what its body reads when the reference does. -/
theorem tie {body : Parser α → Parser α} (h : ∀ p, p.Reads R → (body p).Reads R) :
    Reads (tie body) R := by
  intro s
  induction hn : s.left using Nat.strongRecOn generalizing s with
  | ind n ih =>
    intro a r hrun
    rw [run_tie] at hrun
    refine h _ ?_ s a r hrun
    intro t b r' hb
    rw [run_reference] at hb
    split at hb
    · rename_i hlt
      exact ih t.left (hn ▸ hlt) t rfl b r' hb
    · cases hb

end Reads

end MiniJava.Parser
