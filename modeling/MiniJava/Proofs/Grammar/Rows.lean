import MiniJava.Proofs.Grammar.Reads
import MiniJava.Proofs.Tree.Numbering

/-!
# Rows of a text

A node is written as tokens of its own with its parts between them (`RawNode.write`). So the part of
a text that a node was read from consists of tokens for the node itself and of a row for each child
(`RawNode.ReadFrom`), and it is known of each node below which part of the text is its own. This is
more than `Parser.Reads` tells: there the tokens that were passed over have no places.

What stands between the parts is a row with holes: `fill` puts rows of tokens into the holes, and
`Fills` does the same with tokens of the text. `p.Covers R` says of a parser that what it passes
over is related to the value, and `p.Forms P frame nodes` that it fills a row with holes, the holes
with what the nodes in the value were read from. The parts of a production come one behind the
other, so their rows are collected (`Continues`) until the node is made.
-/

namespace MiniJava

open Token (enclosed commaSeparated)

variable {α β : Type}

/-! ## Rows with holes -/

/-- A row with holes, when these are filled one after the other. -/
def fill : List (Option Token) → List (List Token) → List Token
  | [], _ => []
  | some t :: frame, rows => t :: fill frame rows
  | none :: frame, rows => rows.headD [] ++ fill frame rows.tail

/-- So many holes with nothing between them. -/
def holes (count : Nat) : List (Option Token) := List.replicate count none

/-- Rows with holes, with a token between each two. -/
def separated (t : Token) (frames : List (List (Option Token))) : List (Option Token) :=
  [some t].intercalate frames

/-- Rows without holes are a row without holes. -/
theorem separated_map_some (t : Token) (rows : List (List Token)) :
    separated t (rows.map (·.map some)) = ([t].intercalate rows).map some := by
  cases rows with
  | nil => rfl
  | cons row rows =>
    rw [separated, List.map_cons, Parser.intercalate_cons, Parser.intercalate_cons]
    simp [List.flatMap_map, List.map_flatMap]

/-- So many holes with commas between each two. -/
def commaHoles (count : Nat) : List (Option Token) :=
  separated (.punct .comma) (List.replicate count [none])

section Fill

variable {frame : List (Option Token)} {row : List Token} {rows rows' : List (List Token)}
  {count : Nat}

@[simp] theorem fill_nil : fill [] rows = [] := by cases rows <;> rfl

@[simp] theorem fill_some (t : Token) : fill (some t :: frame) rows = t :: fill frame rows := rfl

@[simp] theorem fill_none : fill (none :: frame) (row :: rows) = row ++ fill frame rows := rfl

@[simp] theorem fill_map_some (ts : List Token) :
    fill (ts.map some ++ frame) rows = ts ++ fill frame rows := by
  induction ts with
  | nil => rfl
  | cons t ts ih => exact congrArg (t :: ·) ih

@[simp] theorem fill_flag (b : Bool) (t : Token) :
    fill ((if b then [some t] else []) ++ frame) rows =
      (if b then [t] else []) ++ fill frame rows := by cases b <;> rfl

theorem fill_holes (h : rows.length = count) :
    fill (holes count ++ frame) (rows ++ rows') = rows.flatten ++ fill frame rows' := by
  subst h
  induction rows with
  | nil => rfl
  | cons row rows ih =>
    rw [List.flatten_cons, List.append_assoc, ← ih]
    rfl

/-- The holes are the last ones. -/
theorem fill_last_holes (h : rows.length = count) :
    fill (holes count ++ frame) rows = rows.flatten ++ fill frame [] := by
  rw [← fill_holes h, List.append_nil]

theorem fill_commaHoles (h : rows.length = count) :
    fill (commaHoles count ++ frame) (rows ++ rows') = commaSeparated rows ++ fill frame rows' := by
  subst h
  -- behind the first part there is a comma in front of each
  have more (rows : List (List Token)) :
      fill ((List.replicate rows.length [none]).flatMap ([some (.punct .comma)] ++ ·) ++ frame)
          (rows ++ rows') =
        rows.flatMap ([.punct .comma] ++ ·) ++ fill frame rows' := by
    induction rows with
    | nil => rfl
    | cons row rows ih =>
      rw [List.flatMap_cons, List.append_assoc, ← ih]
      simp [List.replicate_succ]
  unfold commaHoles separated commaSeparated
  cases rows with
  | nil => rfl
  | cons row rows =>
    rw [List.length_cons, List.replicate_succ, Parser.intercalate_cons, Parser.intercalate_cons,
      List.append_assoc, List.append_assoc, ← more rows]
    rfl

/-- The holes are the last ones. -/
theorem fill_last_commaHoles (h : rows.length = count) :
    fill (commaHoles count ++ frame) rows = commaSeparated rows ++ fill frame [] := by
  rw [← fill_commaHoles h, List.append_nil]

end Fill

/-- A row of the text fills the holes of a row with holes, one after the other, with what is related
to the elements of a list. -/
inductive Fills (R : List Lexeme → α → Prop) : List (Option Token) → List Lexeme → List α → Prop
  | nil : Fills R [] [] []
  | token {l : Lexeme} {frame : List (Option Token)} {ls : List Lexeme} {as : List α}
    (h : Fills R frame ls as) : Fills R (some l.token :: frame) (l :: ls) as
  | part {ps ls : List Lexeme} {a : α} {frame : List (Option Token)} {as : List α} (ha : R ps a)
    (h : Fills R frame ls as) : Fills R (none :: frame) (ps ++ ls) (a :: as)

/-- The node was read from a row of the text: the row consists of the tokens that are written for
the node itself and, in the places of the children, of the rows that these were read from. Each node
is related by `P` to its row. -/
inductive RawNode.ReadFrom (P : List Lexeme → RawNode → Prop) : List Lexeme → RawNode → Prop
  | node {n : RawNode} {ls : List Lexeme} {frame : List (Option Token)}
    (written : ∀ rows, rows.length = n.children.length → n.write rows = fill frame rows)
    (parts : Fills (ReadFrom P) frame ls n.children) (here : P ls n) : ReadFrom P ls n

namespace Fills

variable {R R' : List Lexeme → α → Prop} {frame frame' : List (Option Token)} {ls ls' : List Lexeme}
  {as as' : List α}

theorem append (h : Fills R frame ls as) (h' : Fills R frame' ls' as') :
    Fills R (frame ++ frame') (ls ++ ls') (as ++ as') := by
  induction h with
  | nil => exact h'
  | token _ ih => exact .token ih
  | part ha _ ih =>
    rw [List.append_assoc]
    exact .part ha ih

/-- One element by itself. -/
theorem single {a : α} (ha : R ls a) : Fills R [none] ls [a] := by
  have h := part ha (.nil (R := R))
  rwa [List.append_nil] at h

theorem mono (h : Fills R frame ls as) (hR : ∀ a ∈ as, ∀ ps ⊆ ls, R ps a → R' ps a) :
    Fills R' frame ls as := by
  induction h with
  | nil => exact .nil
  | token _ ih => exact .token (ih fun a ha ps hps => hR a ha ps (List.subset_cons_of_subset _ hps))
  | part ha _ ih =>
    refine .part (hR _ List.mem_cons_self _ (List.subset_append_left _ _) ha) (ih ?_)
    exact fun a ha ps hps => hR a (List.mem_cons_of_mem _ ha) ps
      (List.subset_append_of_subset_right _ hps)

/-- Each element is related to some row. -/
theorem exists_row (h : Fills R frame ls as) {a : α} (ha : a ∈ as) : ∃ ps, R ps a := by
  induction h with
  | nil => cases ha
  | token _ ih => exact ih ha
  | @part ps _ b _ _ hb _ ih =>
    rcases List.mem_cons.mp ha with rfl | ha
    · exact ⟨ps, hb⟩
    · exact ih ha

/-- The elements may be changed if they stay related to their rows. -/
theorem map {f : α → α} (h : Fills R frame ls as) (hR : ∀ a ∈ as, ∀ ps, R ps a → R' ps (f a)) :
    Fills R' frame ls (as.map f) := by
  induction h with
  | nil => exact .nil
  | token _ ih => exact .token (ih hR)
  | part ha _ ih =>
    obtain ⟨hRa, hRas⟩ := List.forall_mem_cons.mp hR
    exact .part (hRa _ ha) (ih hRas)

/-- The tokens between the holes are tokens of the text. -/
theorem exists_mem (h : Fills R frame ls as) {t : Token} (ht : some t ∈ frame) :
    ∃ l ∈ ls, l.token = t := by
  induction h with
  | nil => cases ht
  | @token l _ _ _ _ ih =>
    rcases List.mem_cons.mp ht with ht | ht
    · exact ⟨l, List.mem_cons_self, (Option.some.inj ht).symm⟩
    · obtain ⟨l, hl, hlt⟩ := ih ht
      exact ⟨l, List.mem_cons_of_mem _ hl, hlt⟩
  | part _ _ ih =>
    rcases List.mem_cons.mp ht with ht | ht
    · cases ht
    · obtain ⟨l, hl, hlt⟩ := ih ht
      exact ⟨l, List.mem_append_right _ hl, hlt⟩

/-- If the row of each element is spelled in some way, the whole row is as well. -/
theorem map_token (h : Fills R frame ls as) {w : α → List Token}
    (hR : ∀ a ∈ as, ∀ ps, R ps a → ps.map Lexeme.token = w a) :
    ls.map Lexeme.token = fill frame (as.map w) := by
  induction h with
  | nil => rfl
  | token _ ih => rw [List.map_cons, ih hR, fill_some]
  | part ha _ ih =>
    obtain ⟨hRa, hRas⟩ := List.forall_mem_cons.mp hR
    rw [List.map_append, List.map_cons, fill_none, hRa _ ha, ih hRas]

end Fills

/-- The row that a node was read from is the node written out. So it is known how long the rows of
the children are. -/
theorem RawNode.ReadFrom.map_token {P : List Lexeme → RawNode → Prop} {ls : List Lexeme}
    {n : RawNode} (h : ReadFrom P ls n) : ls.map Lexeme.token = n.tokens := by
  induction n using RawNode.induction generalizing ls with
  | step n ih =>
    cases h with
    | node written parts here =>
      rw [tokens_eq, written _ (List.length_map _)]
      exact parts.map_token fun c hc ps h => ih c hc h

/-- What is related to the rows inside of a row may be something weaker. -/
theorem RawNode.ReadFrom.mono {P Q : List Lexeme → RawNode → Prop} {ls : List Lexeme} {n : RawNode}
    (h : ReadFrom P ls n) (hPQ : ∀ ms ⊆ ls, ∀ m, P ms m → Q ms m) : ReadFrom Q ls n := by
  induction n using RawNode.induction generalizing ls with
  | step n ih =>
    cases h with
    | node written parts here =>
      refine .node written (parts.mono fun c hc ps hps h => ?_) (hPQ ls (List.Subset.refl _) n here)
      exact ih c hc h fun ms hms => hPQ ms (List.Subset.trans hms hps)

namespace Parser

/-! ## What parsers pass over -/

/-- What `p` passes over is related to the value it yields. -/
def Covers (p : Parser α) (R : List Lexeme → α → Prop) : Prop :=
  ∀ s a r, p.run s = some (a, r) → ∃ ls, s.rest = ls ++ r.rest ∧ R ls a

namespace Covers

variable {P R : List Lexeme → α → Prop} {S : List Lexeme → β → Prop} {p q : Parser α}

theorem mono (h : p.Covers P) (hPR : ∀ ls a, P ls a → R ls a) : p.Covers R := by
  intro s a r hrun
  obtain ⟨ls, hls, ha⟩ := h s a r hrun
  exact ⟨ls, hls, hPR ls a ha⟩

protected theorem pure {a : α} (h : R [] a) : (Pure.pure a : Parser α).Covers R := by
  rintro s _ _ ⟨⟩
  exact ⟨[], rfl, h⟩

protected theorem bind {f : α → Parser β} (hp : p.Covers R)
    (hf : ∀ ls a, R ls a → (f a).Covers fun ms b => S (ls ++ ms) b) : (p >>= f).Covers S := by
  intro s b r' hrun
  rw [run_bind, Option.bind_eq_some_iff] at hrun
  obtain ⟨⟨a, r⟩, ha, hb⟩ := hrun
  obtain ⟨ls, hls, hR⟩ := hp s a r ha
  obtain ⟨ms, hms, hS⟩ := hf ls a hR r b r' hb
  exact ⟨ls ++ ms, by rw [hls, hms, List.append_assoc], hS⟩

/-- A parser starts at its first token. -/
theorem here_bind {f : Nat → Parser β}
    (h : ∀ p, (f p).Covers fun ls b => (∀ l ∈ ls.head?, p = l.span.start) → S ls b) :
    (here >>= f).Covers S := by
  intro s b r hrun
  rw [run_bind, run_here, Option.bind_some] at hrun
  obtain ⟨ls, hls, hS⟩ := h _ _ _ _ hrun
  refine ⟨ls, hls, hS fun l hl => ?_⟩
  obtain ⟨ms, rfl⟩ := List.head?_eq_some_iff.mp hl
  rw [Input.span, hls]
  rfl

protected theorem satisfy {expected : List Expected} {f : Token → Option α}
    (h : ∀ l a, f l.token = some a → R [l] a) : (satisfy expected f).Covers R := by
  intro s a r hrun
  rw [run_satisfy, Option.map_eq_some_iff] at hrun
  obtain ⟨b, hb, hr⟩ := hrun
  obtain ⟨t, ht, hf⟩ := Option.bind_eq_some_iff.mp hb
  obtain ⟨ts, hts⟩ := List.head?_eq_some_iff.mp ht
  obtain ⟨l, ls, hrest, rfl, -⟩ := List.map_eq_cons_iff.mp hts
  cases hr
  refine ⟨[l], ?_, h l _ hf⟩
  change s.rest = [l] ++ s.rest.tail
  rw [hrest]
  rfl

theorem orElse (hp : p.Covers R) (hq : q.Covers R) : (p <|> q).Covers R := by
  intro s a r hrun
  rw [run_orElse, Option.or_eq_some_iff] at hrun
  rcases hrun with hrun | ⟨-, hrun⟩
  · exact hp s a r hrun
  · exact hq s a r hrun

theorem choice {ps : List (Parser α)} (h : ∀ q ∈ p :: ps, q.Covers R) : (choice p ps).Covers R := by
  intro s a r hrun
  rw [run_choice] at hrun
  obtain ⟨q, hq, hrun⟩ := List.exists_of_findSome?_eq_some hrun
  exact h q hq s a r hrun

theorem optional {R : List Lexeme → Option α → Prop} (hp : p.Covers fun ls a => R ls (some a))
    (hnone : R [] none) : (optional p).Covers R := by
  intro s a r hrun
  rw [run_optional] at hrun
  cases h : p.run s with
  | none =>
    rw [h] at hrun
    cases hrun
    exact ⟨[], rfl, hnone⟩
  | some m =>
    rw [h] at hrun
    cases hrun
    exact hp s m.1 m.2 h

theorem tryMap {f : α → Except Cause β} (hp : p.Covers R)
    (hf : ∀ ls a b, R ls a → f a = .ok b → S ls b) : (tryMap p f).Covers S := by
  intro s b r hrun
  rw [run_tryMap, Option.bind_eq_some_iff] at hrun
  obtain ⟨⟨a, r'⟩, ha, hb⟩ := hrun
  obtain ⟨ls, hls, hR⟩ := hp s a r' ha
  cases h : f a with
  | error e => simp [h, Except.toOption] at hb
  | ok b' =>
    simp only [h, Except.toOption, Option.map_some, Option.some.injEq, Prod.mk.injEq] at hb
    obtain ⟨rfl, rfl⟩ := hb
    exact ⟨ls, hls, hf ls a b' hR h⟩

/-- A row of values is related to a row of the text if each round keeps the relation. -/
theorem many {R : List Lexeme → List α → Prop} (hp : p.Covers P) (hnil : R [] [])
    (hcons : ∀ ls a ms as, P ls a → R ms as → R (ls ++ ms) (a :: as)) : (many p).Covers R := by
  intro s
  -- what is left gets shorter with each round
  induction hn : s.left using Nat.strongRecOn generalizing s with
  | ind n ih =>
    intro as r hrun
    rw [run_many] at hrun
    cases h : p.run s with
    | none =>
      rw [h] at hrun
      cases hrun
      exact ⟨[], rfl, hnil⟩
    | some m =>
      obtain ⟨a, r'⟩ := m
      obtain ⟨ls, hls, ha⟩ := hp s a r' h
      simp only [h] at hrun
      split at hrun
      · rename_i hlt
        obtain ⟨⟨as', r''⟩, has, heq⟩ := Option.map_eq_some_iff.mp hrun
        cases heq
        obtain ⟨ms, hms, has'⟩ := ih r'.left (hn ▸ hlt) r' rfl _ _ has
        exact ⟨ls ++ ms, by rw [hls, hms, List.append_assoc], hcons ls a ms as' ha has'⟩
      · cases hrun
        exact ⟨ls ++ [], by rw [hls, List.append_nil], hcons ls a [] [] ha hnil⟩

/-- A value that grows to the right with each round. -/
theorem many_foldl {I : List Lexeme → β → Prop} {step : β → α → β}
    (h : p.Covers fun ms a => ∀ ls b, I ls b → I (ls ++ ms) (step b a)) :
    (Parser.many p).Covers fun ms as => ∀ ls b, I ls b → I (ls ++ ms) (as.foldl step b) := by
  refine many h (fun ls b hb => (List.append_nil ls).symm ▸ hb) fun ks a ms as ha has ls b hb => ?_
  rw [← List.append_assoc]
  exact has (ls ++ ks) (step b a) (ha ls b hb)

/-- A value that grows to the left with each round. -/
theorem many_foldr {I : List Lexeme → β → Prop} {step : α → β → β}
    (h : p.Covers fun ms a => ∀ ls b, I ls b → I (ms ++ ls) (step a b)) :
    (Parser.many p).Covers fun ms as => ∀ ls b, I ls b → I (ms ++ ls) (as.foldr step b) := by
  refine many h (fun ls b hb => hb) fun ks a ms as ha has ls b hb => ?_
  rw [List.append_assoc]
  exact ha (ms ++ ls) (as.foldr step b) (has ls b hb)

/-- A parser that refers to itself covers what its body does when the reference does. -/
theorem tie {body : Parser α → Parser α} (h : ∀ p, p.Covers R → (body p).Covers R) :
    Covers (tie body) R := by
  intro s
  induction hn : s.left using Nat.strongRecOn generalizing s with
  | ind n ih =>
    intro a r hrun
    rw [run_tie] at hrun
    refine h _ ?_ s a r hrun
    intro t b r' hb
    rw [run_reference] at hb
    split at hb
    · rename_i hlt
      exact ih t.left (hn ▸ hlt) t rfl b r' hb
    · cases hb

end Covers

/-! ## Rows with holes that parsers fill -/

variable {γ : Type} {P : List Lexeme → α → Prop} {frame : List (Option Token)} {as : List α}

/-- What `p` passes over fills a row with holes, the holes with what `P` relates to the nodes in the
value. -/
def Forms (P : List Lexeme → α → Prop) (p : Parser β) (frame : β → List (Option Token))
    (nodes : β → List α) : Prop :=
  p.Covers fun ls b => Fills P (frame b) ls (nodes b)

/-- Behind a row that has been filled with nodes, what `p` passes over completes what `S` relates to
the value. -/
def Continues (P : List Lexeme → α → Prop) (frame : List (Option Token)) (as : List α)
    (p : Parser β) (S : List Lexeme → β → Prop) : Prop :=
  p.Covers fun ms b => ∀ ls, Fills P frame ls as → S (ls ++ ms) b

namespace Continues

variable {S : List Lexeme → β → Prop}

/-- Nothing has been passed over yet. -/
theorem start {p : Parser β} (h : Continues P [] [] p S) : p.Covers S :=
  h.mono fun _ _ h => h [] .nil

/-- One parser more, of whose value something is known. -/
theorem next_knowing {p : Parser γ} {q : γ → Parser β} {f : γ → List (Option Token)}
    {g : γ → List α} {T : γ → Prop}
    (hp : p.Covers fun ls c => T c ∧ Fills P (f c) ls (g c))
    (hq : ∀ c, T c → Continues P (frame ++ f c) (as ++ g c) (q c) S) :
    Continues P frame as (p >>= q) S := by
  refine Covers.bind hp fun ls c ⟨hc, hfills⟩ => (hq c hc).mono fun ms b h ks hks => ?_
  rw [← List.append_assoc]
  exact h (ks ++ ls) (hks.append hfills)

/-- One parser more. -/
theorem next {p : Parser γ} {q : γ → Parser β} {f : γ → List (Option Token)} {g : γ → List α}
    (hp : Forms P p f g) (hq : ∀ c, Continues P (frame ++ f c) (as ++ g c) (q c) S) :
    Continues P frame as (p >>= q) S :=
  next_knowing (T := fun _ => True) (Covers.mono hp fun _ _ h => ⟨trivial, h⟩) fun c _ => hq c

/-- One parser more, whose value is known from how it is written. -/
theorem next_reads {p : Parser γ} {q : γ → Parser β} {f : γ → List (Option Token)}
    {g : γ → List α} {w : γ → List Token} {T : γ → Prop} (hp : Forms P p f g)
    (hT : p.Reads (Spells w T))
    (hq : ∀ c, T c → Continues P (frame ++ f c) (as ++ g c) (q c) S) :
    Continues P frame as (p >>= q) S := by
  refine next_knowing (fun s c r hrun => ?_) hq
  obtain ⟨ls, hls, hfills⟩ := hp s c r hrun
  obtain ⟨-, -, -, hc⟩ := hT s c r hrun
  exact ⟨ls, hls, hc, hfills⟩

/-- The end, where the value is made. -/
protected theorem pure {b : β} (h : ∀ ls, Fills P frame ls as → S ls b) :
    Continues P frame as (Pure.pure b) S :=
  Covers.pure fun ls hls => (List.append_nil ls).symm ▸ h ls hls

end Continues

namespace Forms

variable {p q : Parser β} {f : β → List (Option Token)} {g : β → List α}

theorem congr {f' : β → List (Option Token)} {g' : β → List α} (h : Forms P p f g)
    (hf : ∀ b, f b = f' b) (hg : ∀ b, g b = g' b) : Forms P p f' g' :=
  Covers.mono h fun _ b hb => hf b ▸ hg b ▸ hb

/-- A node is a part. -/
theorem node {p : Parser α} (h : p.Covers P) : Forms P p (fun _ => [none]) fun a => [a] :=
  h.mono fun _ _ ha => .single ha

theorem satisfy {expected : List Expected} {k : Token → Option β}
    (h : ∀ t b, k t = some b → f b = [some t] ∧ g b = []) :
    Forms P (Parser.satisfy expected k) f g := by
  refine Covers.satisfy fun l b hb => ?_
  obtain ⟨hf, hg⟩ := h _ b hb
  rw [hf, hg]
  exact .token .nil

theorem token (t : Token) : Forms P (token t) (fun _ => [some t]) fun _ => [] := by
  refine satisfy fun t' b h => ?_
  by_cases ht : t' = t
  · exact ⟨by rw [ht], rfl⟩
  · simp [ht] at h

theorem ident : Forms P ident (fun name => [some (.ident name)]) fun _ => [] := by
  refine satisfy fun t name h => ?_
  cases t with
  | ident name' =>
    cases h
    exact ⟨rfl, rfl⟩
  | _ => cases h

theorem orElse (hp : Forms P p f g) (hq : Forms P q f g) : Forms P (p <|> q) f g :=
  Covers.orElse hp hq

theorem between {left right : Punct} (hp : Forms P p f g) :
    Forms P (between left right p)
      (fun b => some (.punct left) :: (f b ++ [some (.punct right)])) g := by
  refine Continues.start (.next (token _) fun _ => .next hp fun b => .next (token _) fun _ =>
    .pure fun ls hls => ?_)
  simpa using hls

theorem optional (hp : Forms P p f g) :
    Forms P (optional p) (fun b? => b?.elim [] f) fun b? => b?.elim [] g :=
  Covers.optional hp .nil

theorem many (hp : Forms P p f g) :
    Forms P (many p) (fun bs => bs.flatMap f) fun bs => bs.flatMap g :=
  Covers.many hp .nil fun _ _ _ _ hb hbs => hb.append hbs

/-- Any number of nodes. -/
theorem nodes {p : Parser α} (h : p.Covers P) :
    Forms P (Parser.many p) (fun as => holes as.length) id :=
  (many (node h)).congr (fun as => by rw [← List.map_eq_flatMap, List.map_const', holes])
    List.flatMap_singleton'

theorem sepBy1 {t : Token} (hp : Forms P p f g) :
    Forms P (sepBy1 p (Parser.token t)) (fun bs => separated t (bs.map f))
      fun bs => bs.flatMap g := by
  have hmore : Forms P (do Parser.token t; p) (fun b => some t :: f b) g :=
    Continues.start (.next (token t) fun _ => hp.mono fun _ _ h ls hls => hls.append h)
  refine Continues.start (.next hp fun b => .next (many hmore) fun bs => .pure fun ls hls => ?_)
  dsimp only
  rw [separated, List.map_cons, intercalate_cons, List.flatMap_map, List.flatMap_cons]
  exact hls

/-- Any number of nodes with commas between each two. -/
theorem commaNodes {p : Parser α} (h : p.Covers P) :
    Forms P (sepBy p (punct .comma)) (fun as => commaHoles as.length) id := by
  refine Continues.start (.next (optional (sepBy1 (node h))) fun bs? => .pure fun ls hls => ?_)
  cases bs? with
  | none => exact hls
  | some bs => simpa [commaHoles] using hls

end Forms

end Parser

end MiniJava
