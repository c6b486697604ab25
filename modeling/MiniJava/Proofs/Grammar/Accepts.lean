import MiniJava.Proofs.Grammar.Reads

/-!
# What parsers accept

`p.Accepts n ts us Q` says that where fewer than `n` tokens are left, `p` reads the row `ts` in front
of the row `us`, and nothing of `us`, and its value fulfils `Q`. `p.Refuses us` says that `p` reads
nothing in front of `us`: a choice goes on behind a parser that refuses, and a repetition stops
there. Mostly a parser refuses because of the first token alone, which is what `p.Starts f` says.

The bound `n` carries the induction on what is left. A parser that starts with a token may use a
reference to itself that accepts below `n`, and then accepts below `n + 1` (`Accepts.tie`).
-/

namespace MiniJava.Parser

open Token (enclosed commaSeparated BeginsWith)

variable {α β : Type}

/-! ## First tokens -/

/-- Whatever the parser reads starts with a token of this kind. -/
def Starts (p : Parser α) (f : Token → Bool) : Prop :=
  ∀ s a r, p.run s = some (a, r) → BeginsWith f s.tokens

/-- The parser reads nothing in front of this row. -/
def Refuses (p : Parser α) (us : List Token) : Prop := ∀ s, s.tokens = us → p.run s = none

namespace Starts

variable {p q : Parser α} {f g : Token → Bool}

theorem mono (h : p.Starts f) (hfg : ∀ t, f t = true → g t = true) : p.Starts g :=
  fun s a r hrun => (h s a r hrun).mono hfg

theorem of_reads {R : List Token → α → Prop} (h : p.Reads R)
    (hR : ∀ ts a, R ts a → BeginsWith f ts) : p.Starts f := by
  intro s a r hrun
  obtain ⟨ts, hts, ha⟩ := h s a r hrun
  rw [hts]
  exact (hR ts a ha).append r.tokens

protected theorem satisfy {expected : List Expected} {g : Token → Option α}
    (h : ∀ t a, g t = some a → f t = true) : (satisfy expected g).Starts f := by
  refine of_reads (R := fun ts _ => ∃ t, ts = [t] ∧ f t = true)
    (Reads.satisfy fun t a ha => ⟨t, rfl, h t a ha⟩) ?_
  rintro _ a ⟨t, rfl, ht⟩
  exact ⟨t, [], rfl, ht⟩

protected theorem token {t : Token} (ht : f t = true) : (token t).Starts f := by
  refine .satisfy fun t' a h => ?_
  by_cases heq : t' = t
  · rw [heq, ht]
  · simp [heq] at h

protected theorem bind (h : p.Starts f) (k : α → Parser β) : (p >>= k).Starts f := by
  intro s b r hrun
  rw [run_bind, Option.bind_eq_some_iff] at hrun
  obtain ⟨⟨a, r'⟩, ha, -⟩ := hrun
  exact h s a r' ha

theorem here_bind {k : Nat → Parser β} (h : ∀ p, (k p).Starts f) :
    (here >>= k).Starts f := by
  intro s b r hrun
  rw [run_bind, run_here, Option.bind_some] at hrun
  exact h _ _ _ _ hrun

protected theorem between {left right : Punct} (hleft : f (.punct left) = true) :
    (between left right p).Starts f := (Starts.token hleft).bind _

theorem orElse (hp : p.Starts f) (hq : q.Starts f) : (p <|> q).Starts f := by
  intro s a r hrun
  rw [run_orElse, Option.or_eq_some_iff] at hrun
  rcases hrun with hrun | ⟨-, hrun⟩
  · exact hp s a r hrun
  · exact hq s a r hrun

theorem choice {ps : List (Parser α)} (h : ∀ q ∈ p :: ps, q.Starts f) :
    (choice p ps).Starts f := by
  intro s a r hrun
  rw [run_choice] at hrun
  obtain ⟨q, hq, hrun⟩ := List.exists_of_findSome?_eq_some hrun
  exact h q hq s a r hrun

/-- A parser refuses what does not start as it must. -/
theorem refuses (h : p.Starts f) {us : List Token} (hus : ∀ t ∈ us.head?, f t = false) :
    p.Refuses us := by
  intro s hs
  cases hrun : p.run s with
  | none => rfl
  | some m =>
    obtain ⟨t, ts, hts, ht⟩ := h s m.1 m.2 hrun
    rw [← hs, hts] at hus
    rw [hus t rfl] at ht
    cases ht

theorem refuses_cons (h : p.Starts f) {t : Token} (ht : f t = false) (us : List Token) :
    p.Refuses (t :: us) := by
  refine h.refuses ?_
  rintro _ ⟨⟩
  exact ht

end Starts

/-! ## Refusing -/

namespace Refuses

variable {p q : Parser α} {us : List Token}

protected theorem bind (h : p.Refuses us) (k : α → Parser β) : (p >>= k).Refuses us := by
  intro s hs
  rw [run_bind, h s hs, Option.bind_none]

theorem here_bind {k : Nat → Parser β} (h : ∀ p, (k p).Refuses us) :
    (here >>= k).Refuses us := by
  intro s hs
  rw [run_bind, run_here, Option.bind_some]
  exact h _ s hs

/-- A parser may accept one token and refuse the next. -/
theorem token_bind {t : Token} {k : Unit → Parser β} (h : (k ()).Refuses us) :
    (token t >>= k).Refuses (t :: us) := by
  intro s hs
  have hnext := h s.advance (by rw [Input.tokens_advance, hs, List.tail_cons])
  rw [run_bind, run_token, hs, List.head?_cons, if_pos rfl, Option.bind_some, hnext]

theorem ident_bind {name : String} {k : String → Parser β} (h : (k name).Refuses us) :
    (ident >>= k).Refuses (.ident name :: us) := by
  intro s hs
  have hnext := h s.advance (by rw [Input.tokens_advance, hs, List.tail_cons])
  rw [run_bind, ident, run_satisfy, hs, List.head?_cons, Option.bind_some, Option.map_some,
    Option.bind_some, hnext]

protected theorem token {t : Token} (h : ∀ t' ∈ us.head?, t' ≠ t) : (token t).Refuses us := by
  intro s hs
  rw [run_token, hs, if_neg]
  exact fun heq => h t heq rfl

protected theorem satisfy {expected : List Expected} {g : Token → Option α} {t : Token}
    (ht : g t = none) (us : List Token) : (Parser.satisfy expected g).Refuses (t :: us) := by
  intro s hs
  rw [run_satisfy, hs, List.head?_cons, Option.bind_some, ht, Option.map_none]

theorem orElse (hp : p.Refuses us) (hq : q.Refuses us) : (p <|> q).Refuses us := by
  intro s hs
  rw [run_orElse, hp s hs, hq s hs, Option.or_none]

end Refuses

/-! ## Accepting -/

/-- Below `n` tokens the parser reads the row `ts` in front of `us`, with a value of the sort `Q`. -/
def Accepts (p : Parser α) (n : Nat) (ts us : List Token) (Q : α → Prop) : Prop :=
  ∀ s, s.left < n → s.tokens = ts ++ us → ∃ a r, p.run s = some (a, r) ∧ r.tokens = us ∧ Q a

namespace Accepts

variable {p q : Parser α} {m n : Nat} {ts us vs : List Token} {P Q : α → Prop} {R : β → Prop}

theorem mono (h : p.Accepts n ts us P) (hPQ : ∀ a, P a → Q a) : p.Accepts n ts us Q := by
  intro s hlt hs
  obtain ⟨a, r, hrun, hr, ha⟩ := h s hlt hs
  exact ⟨a, r, hrun, hr, hPQ a ha⟩

theorem below (h : p.Accepts n ts us Q) (hmn : m ≤ n) : p.Accepts m ts us Q :=
  fun s hlt hs => h s (Nat.lt_of_lt_of_le hlt hmn) hs

/-! ### Sequences -/

protected theorem pure {a : α} (h : Q a) : (Pure.pure a : Parser α).Accepts n [] us Q :=
  fun s _ hs => ⟨a, s, rfl, hs, h⟩

protected theorem bind {f : α → Parser β} (hp : p.Accepts n ts (us ++ vs) Q)
    (hf : ∀ a, Q a → (f a).Accepts n us vs R) : (p >>= f).Accepts n (ts ++ us) vs R := by
  intro s hlt hs
  rw [List.append_assoc] at hs
  obtain ⟨a, r, hrun, hr, ha⟩ := hp s hlt hs
  have hle : r.left ≤ s.left := by
    rw [s.left_eq_length, r.left_eq_length, hs, hr]
    simp only [List.length_append]
    omega
  obtain ⟨b, r', hrun', hr', hb⟩ := hf a ha r (by omega) hr
  refine ⟨b, r', ?_, hr', hb⟩
  rw [run_bind, hrun, Option.bind_some, hrun']

theorem here_bind {f : Nat → Parser β} (h : ∀ p, (f p).Accepts n ts us R) :
    (here >>= f).Accepts n ts us R := by
  intro s hlt hs
  rw [run_bind, run_here, Option.bind_some]
  exact h _ s hlt hs

/-- The last step of a sequence. -/
theorem bind_last {f : α → Parser β} (hp : p.Accepts n ts us Q)
    (hf : ∀ a, Q a → (f a).Accepts n [] us R) : (p >>= f).Accepts n ts us R := by
  rw [← List.append_nil ts]
  exact .bind hp hf

/-! ### Tokens

A rule whose name ends in `succ` counts the token it reads: what comes behind has one less. -/

theorem satisfy_bind_succ {expected : List Expected} {g : Token → Option α} {f : α → Parser β}
    {t : Token} {a : α} (ht : g t = some a) (h : (f a).Accepts n ts us R) :
    (Parser.satisfy expected g >>= f).Accepts (n + 1) (t :: ts) us R := by
  intro s hlt hs
  have hadvance := Input.left_advance hs
  obtain ⟨b, r, hrun, hr, hb⟩ := h s.advance (by omega) (by rw [Input.tokens_advance, hs]; rfl)
  refine ⟨b, r, ?_, hr, hb⟩
  rw [run_bind, run_satisfy, hs, List.cons_append, List.head?_cons, Option.bind_some, ht,
    Option.map_some, Option.bind_some, hrun]

theorem satisfy_bind {expected : List Expected} {g : Token → Option α} {f : α → Parser β}
    {t : Token} {a : α} (ht : g t = some a) (h : (f a).Accepts n ts us R) :
    (Parser.satisfy expected g >>= f).Accepts n (t :: ts) us R :=
  (satisfy_bind_succ ht h).below (Nat.le_succ n)

theorem token_bind_succ {t : Token} {f : Unit → Parser β} (h : (f ()).Accepts n ts us R) :
    (Parser.token t >>= f).Accepts (n + 1) (t :: ts) us R :=
  satisfy_bind_succ (by simp) h

theorem token_bind {t : Token} {f : Unit → Parser β} (h : (f ()).Accepts n ts us R) :
    (Parser.token t >>= f).Accepts n (t :: ts) us R :=
  (token_bind_succ h).below (Nat.le_succ n)

theorem ident_bind {name : String} {f : String → Parser β} (h : (f name).Accepts n ts us R) :
    (ident >>= f).Accepts n (.ident name :: ts) us R :=
  satisfy_bind rfl h

protected theorem satisfy {expected : List Expected} {g : Token → Option α} {t : Token} {a : α}
    (ht : g t = some a) (ha : Q a) : (Parser.satisfy expected g).Accepts n [t] us Q := by
  intro s _ hs
  refine ⟨a, s.advance, ?_, by rw [Input.tokens_advance, hs]; rfl, ha⟩
  rw [run_satisfy, hs, List.singleton_append, List.head?_cons, Option.bind_some, ht,
    Option.map_some]

protected theorem endOfInput {Q : Unit → Prop} (h : Q ()) :
    Parser.endOfInput.Accepts n [] [] Q := by
  intro s _ hs
  rw [List.append_nil] at hs
  exact ⟨(), s, by rw [run_endOfInput, if_pos hs], hs, h⟩

theorem between_succ {left right : Punct} (h : p.Accepts n ts (.punct right :: us) Q) :
    (between left right p).Accepts (n + 1) (enclosed left right ts) us Q := by
  refine token_bind_succ (.bind h fun a ha => ?_)
  have hclose : (do punct right; return a : Parser α).Accepts n [.punct right] us Q :=
    token_bind (.pure ha)
  exact hclose

protected theorem between {left right : Punct} (h : p.Accepts n ts (.punct right :: us) Q) :
    (between left right p).Accepts n (enclosed left right ts) us Q :=
  (between_succ h).below (Nat.le_succ n)

/-- A parser may accept a row and refuse what comes next. -/
theorem refuses_bind {f : α → Parser β} (hp : ∀ n, p.Accepts n ts us Q)
    (hf : ∀ a, Q a → (f a).Refuses us) : (p >>= f).Refuses (ts ++ us) := by
  intro s hs
  obtain ⟨a, r, hrun, hr, ha⟩ := hp (s.left + 1) s (Nat.lt_succ_self _) hs
  rw [run_bind, hrun, Option.bind_some, hf a ha r hr]

/-! ### Choices -/

theorem orElse_left (h : p.Accepts n ts us Q) : (p <|> q).Accepts n ts us Q := by
  intro s hlt hs
  obtain ⟨a, r, hrun, hr, ha⟩ := h s hlt hs
  exact ⟨a, r, by rw [run_orElse, hrun, Option.some_or], hr, ha⟩

theorem orElse_right (hp : p.Refuses (ts ++ us)) (hq : q.Accepts n ts us Q) :
    (p <|> q).Accepts n ts us Q := by
  intro s hlt hs
  obtain ⟨a, r, hrun, hr, ha⟩ := hq s hlt hs
  exact ⟨a, r, by rw [run_orElse, hp s hs, Option.none_or, hrun], hr, ha⟩

theorem choice_head {ps : List (Parser α)} (h : p.Accepts n ts us Q) :
    (choice p ps).Accepts n ts us Q := by
  intro s hlt hs
  obtain ⟨a, r, hrun, hr, ha⟩ := h s hlt hs
  exact ⟨a, r, by rw [run_choice, List.findSome?_cons, hrun], hr, ha⟩

/-- Where the first parser refuses, a choice is left to the others. -/
theorem choice_next {ps : List (Parser α)} (hp : p.Refuses (ts ++ us))
    (h : (choice q ps).Accepts n ts us Q) : (choice p (q :: ps)).Accepts n ts us Q := by
  intro s hlt hs
  obtain ⟨a, r, hrun, hr, ha⟩ := h s hlt hs
  exact ⟨a, r, by rw [run_choice, List.findSome?_cons, hp s hs, ← run_choice, hrun], hr, ha⟩

theorem optional_some {Q : Option α → Prop} (h : p.Accepts n ts us fun a => Q (some a)) :
    (optional p).Accepts n ts us Q := by
  intro s hlt hs
  obtain ⟨a, r, hrun, hr, ha⟩ := h s hlt hs
  exact ⟨some a, r, by rw [run_optional, hrun], hr, ha⟩

theorem optional_none {Q : Option α → Prop} (h : p.Refuses us) (hnone : Q none) :
    (optional p).Accepts n [] us Q := by
  intro s _ hs
  exact ⟨none, s, by rw [run_optional, h s hs], hs, hnone⟩

theorem tryMap {f : α → Except Cause β} (h : p.Accepts n ts us fun a => ∃ b, f a = .ok b ∧ R b) :
    (tryMap p f).Accepts n ts us R := by
  intro s hlt hs
  obtain ⟨a, r, hrun, hr, b, hf, hb⟩ := h s hlt hs
  exact ⟨b, r, by simp [hrun, hf, Except.toOption], hr, hb⟩

/-! ### Rows -/

variable {w : β → List Token} {f : α → β} {bs : List β} {G : List Token → Prop}

/-- A repetition reads a row when every element is read in front of the next (`G` says what that may
begin like), and nothing more is read behind the last. -/
theorem many (hp : ∀ b ∈ bs, ∀ vs, G vs → p.Accepts n (w b) vs (f · = b))
    (hw : ∀ b ∈ bs, w b ≠ []) (hG : ∀ b ∈ bs, ∀ vs, G (w b ++ vs)) (hus : G us)
    (hend : p.Refuses us) : (many p).Accepts n (bs.flatMap w) us (fun as => as.map f = bs) := by
  induction bs with
  | nil =>
    intro s _ hs
    refine ⟨[], s, ?_, hs, rfl⟩
    rw [run_many, hend s hs]
  | cons b bs ih =>
    obtain ⟨hpb, hpbs⟩ := List.forall_mem_cons.mp hp
    obtain ⟨hwb, hwbs⟩ := List.forall_mem_cons.mp hw
    obtain ⟨-, hGbs⟩ := List.forall_mem_cons.mp hG
    have hnext : G (bs.flatMap w ++ us) := by
      cases bs with
      | nil => exact hus
      | cons b' bs =>
        rw [List.flatMap_cons, List.append_assoc]
        exact hGbs b' List.mem_cons_self _
    intro s hlt hs
    rw [List.flatMap_cons, List.append_assoc] at hs
    obtain ⟨a, r, hrun, hr, rfl⟩ := hpb _ hnext s hlt hs
    -- A repetition stops where nothing was read, so an element must not be empty.
    have hshorter : r.left < s.left := by
      have := List.length_pos_iff.mpr hwb
      rw [s.left_eq_length, r.left_eq_length, hs, hr]
      simp only [List.length_append]
      omega
    obtain ⟨as, r', hmany, hr', rfl⟩ := ih hpbs hwbs hGbs r (by omega) hr
    refine ⟨a :: as, r', ?_, hr', rfl⟩
    rw [run_many, hrun]
    simp [hshorter, hmany]

/-- A row with separators is read when no separator stands behind it. -/
theorem sepBy1 {t : Token} {b : β}
    (hp : ∀ b' ∈ b :: bs, ∀ vs, G vs → p.Accepts n (w b') vs (f · = b'))
    (ht : ∀ vs, G (t :: vs)) (hus : G us) (hend : ∀ t' ∈ us.head?, t' ≠ t) :
    (sepBy1 p (Parser.token t)).Accepts n ([t].intercalate ((b :: bs).map w)) us
      (fun as => as.map f = b :: bs) := by
  obtain ⟨hpb, hpbs⟩ := List.forall_mem_cons.mp hp
  have hrow : (bs.map w).flatMap ([t] ++ ·) = bs.flatMap fun b => t :: w b := by
    rw [List.flatMap_map]
    rfl
  rw [List.map_cons, intercalate_cons, hrow]
  have hnext : G (bs.flatMap (fun b => t :: w b) ++ us) := by
    cases bs with
    | nil => exact hus
    | cons b' bs => exact ht _
  refine .bind (hpb _ hnext) ?_
  rintro a rfl
  have hmore (b : β) (hb : b ∈ bs) (vs : List Token) (hvs : G vs) :
      (do Parser.token t; p : Parser α).Accepts n (t :: w b) vs (f · = b) :=
    token_bind (hpbs b hb vs hvs)
  have hmany := many hmore (fun _ _ => List.cons_ne_nil _ _) (fun b _ vs => ht _) hus
    ((Refuses.token hend).bind _)
  refine .bind_last hmany ?_
  rintro as rfl
  exact .pure rfl

theorem sepBy (hp : ∀ b ∈ bs, ∀ vs, G vs → p.Accepts n (w b) vs (f · = b))
    (ht : ∀ vs, G (.punct .comma :: vs)) (hus : G us)
    (hend : ∀ t ∈ us.head?, t ≠ .punct .comma) (hempty : p.Refuses us) :
    (sepBy p (punct .comma)).Accepts n (commaSeparated (bs.map w)) us
      (fun as => as.map f = bs) := by
  refine .bind_last (Q := fun as? => (as?.getD []).map f = bs) ?_ fun as? has => .pure has
  cases bs with
  | nil => exact optional_none (hempty.bind _) rfl
  | cons b bs => exact optional_some (sepBy1 hp ht hus hend)

/-! ### Parsers that refer to themselves -/

/-- A parser that refers to itself accepts whatever its body does, when it does so with a reference
that accepts the same below one token less. -/
theorem tie {body : Parser α → Parser α} {C : List Token → List Token → (α → Prop) → Prop}
    (h : ∀ n p, (∀ s a r, p.run s = some (a, r) → run (Parser.tie body) s = some (a, r)) →
      (∀ ts us Q, C ts us Q → p.Accepts n ts us Q) →
      ∀ ts us Q, C ts us Q → (body p).Accepts (n + 1) ts us Q)
    (n : Nat) (hC : C ts us Q) : Accepts (Parser.tie body) n ts us Q := by
  -- The body stands in front of a shorter rest each time it comes back to itself: by induction on the
  -- bound, its reference accepts what it must.
  induction n generalizing ts us Q with
  | zero => exact fun s hlt => absurd hlt (Nat.not_lt_zero _)
  | succ n ih =>
    intro s hlt hs
    rw [run_tie]
    refine h s.left (reference body s) ?_ ?_ ts us Q hC s (Nat.lt_succ_self _) hs
    · intro t a r hrun
      rw [run_reference] at hrun
      split at hrun
      · exact hrun
      · cases hrun
    · intro ts us Q hC t ht hts
      obtain ⟨a, r, hrun, hr, ha⟩ := ih hC t (by omega) hts
      exact ⟨a, r, by rw [run_reference, if_pos ht, hrun], hr, ha⟩

end Accepts

end MiniJava.Parser
