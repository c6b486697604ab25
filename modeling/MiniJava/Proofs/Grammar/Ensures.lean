import MiniJava.Grammar.Parser
import MiniJava.Proofs.Text.Pieces

/-!
# What a parser ensures

`p.Ensures Q` says that whatever `p` reads fulfils `Q`. All parsers are run on tokens that come from
a text, where no identifier is spelled like a reserved word; `Ensures` may rely on this of the input
and has to show it of the rest.

There is one lemma for each combinator. A parser that refers to itself ensures what its body ensures
when the reference does (`Ensures.tie`).
-/

namespace MiniJava

/-! ## Tokens of a text -/

/-- The name is no reserved word. -/
def IsIdentifier (name : String) : Prop := Keyword.ofText? name = none

/-- The spelling of a reserved word is no identifier. -/
theorem IsIdentifier.ne_text {name : String} (h : IsIdentifier name) (k : Keyword) :
    name ≠ k.text := by
  rintro rfl
  rw [IsIdentifier, Keyword.ofText?_text] at h
  cases h

/-- An identifier is no reserved word. -/
def Token.IsSpelled : Token → Prop
  | ident name => IsIdentifier name
  | _ => True

theorem Token.IsLexical.isSpelled {t : Token} (h : t.IsLexical) : t.IsSpelled := by
  cases t with
  | ident name => exact h.2
  | _ => exact trivial

/-- All tokens that are left are spelled as tokens of a text are. -/
def Input.IsSpelled (s : Input) : Prop := ∀ l ∈ s.rest, l.token.IsSpelled

/-- A text can spell the tokens that are read from it. -/
theorem Input.isLexical_ofPieces {size : Nat} {text : List Char} {l : Lexeme}
    (hl : l ∈ (Input.ofPieces size (pieces 0 text)).rest) : l.token.IsLexical := by
  obtain ⟨p, hp, hl⟩ := List.mem_filterMap.mp hl
  obtain ⟨after, hfits⟩ := fitsIn_of_mem_pieces [] text p hp
  have hkind := hfits.fits
  split at hl
  · rename_i t htoken
    cases hl
    rw [htoken] at hkind
    exact hkind.2.2.begins.lexical
  · cases hl

theorem Input.ofPieces_isSpelled (size : Nat) (text : List Char) :
    (Input.ofPieces size (pieces 0 text)).IsSpelled :=
  fun _ hl => (isLexical_ofPieces hl).isSpelled

theorem Input.IsSpelled.advance {s : Input} (h : s.IsSpelled) : s.advance.IsSpelled :=
  fun l hl => h l (List.mem_of_mem_tail hl)

theorem Input.IsSpelled.of_next? {s : Input} (h : s.IsSpelled) {t : Token}
    (ht : s.next? = some t) : t.IsSpelled := by
  unfold Input.next? at ht
  cases hs : s.rest with
  | nil => simp [hs] at ht
  | cons l ls =>
    simp only [hs, List.head?_cons, Option.map_some, Option.some.injEq] at ht
    rw [← ht]
    exact h l (by rw [hs]; exact List.mem_cons_self)

/-! ## The combinators -/

namespace Parser

variable {α β : Type} {P : α → Prop} {Q : β → Prop}

/-- Whatever the parser reads fulfils a condition. -/
def Ensures (p : Parser α) (P : α → Prop) : Prop :=
  ∀ s a e rest, s.IsSpelled → p s = .ok a e rest → P a ∧ rest.IsSpelled

namespace Ensures

theorem mono {P' : α → Prop} {p : Parser α} (h : p.Ensures P) (hP : ∀ a, P a → P' a) :
    p.Ensures P' := by
  intro s a e rest hs ha
  obtain ⟨hPa, hrest⟩ := h s a e rest hs ha
  exact ⟨hP a hPa, hrest⟩

protected theorem pure {a : α} (h : P a) : (Pure.pure a : Parser α).Ensures P := by
  rintro s _ _ _ hs ⟨⟩
  exact ⟨h, hs⟩

protected theorem bind {p : Parser α} {f : α → Parser β} (hp : p.Ensures P)
    (hf : ∀ a, P a → (f a).Ensures Q) : (p >>= f).Ensures Q := by
  intro s b e rest hs hb
  change Parser.bind p f s = _ at hb
  unfold Parser.bind at hb
  cases h : p s with
  | error x => rw [h] at hb; cases hb
  | ok a e' rest' =>
    obtain ⟨ha, hs'⟩ := hp s a e' rest' hs h
    simp only [h] at hb
    cases h' : f a rest' with
    | error x => rw [h'] at hb; cases hb
    | ok b' e'' rest'' =>
      rw [h'] at hb
      cases hb
      exact hf a ha rest' _ _ _ hs' h'

/-- The value of the first parser does not matter. -/
theorem seq {p : Parser α} {f : α → Parser β} (hp : p.Ensures fun _ => True)
    (hf : ∀ a, (f a).Ensures Q) : (p >>= f).Ensures Q :=
  hp.bind fun a _ => hf a

theorem orElse {p q : Parser α} (hp : p.Ensures P) (hq : q.Ensures P) : (p <|> q).Ensures P := by
  intro s a e rest hs ha
  change p.orElse q s = _ at ha
  unfold Parser.orElse at ha
  cases h : p s with
  | ok a' e' rest' =>
    rw [h] at ha
    cases ha
    exact hp s _ _ _ hs h
  | error x =>
    simp only [h] at ha
    cases h' : q s with
    | ok a' e' rest' =>
      rw [h'] at ha
      cases ha
      exact hq s _ _ _ hs h'
    | error x' => rw [h'] at ha; cases ha

theorem choiceAfter {x : Failure} {ps : List (Parser α)} (h : ∀ p ∈ ps, p.Ensures P) :
    (choiceAfter x ps).Ensures P := by
  induction ps generalizing x with
  | nil =>
    intro s a e rest _ ha
    cases ha
  | cons p ps ih =>
    intro s a e rest hs ha
    unfold Parser.choiceAfter at ha
    cases hp : p s with
    | ok a' e' rest' =>
      rw [hp] at ha
      cases ha
      exact h p List.mem_cons_self s _ _ _ hs hp
    | error x' =>
      simp only [hp] at ha
      exact ih (fun q hq => h q (List.mem_cons_of_mem p hq)) s a e rest hs ha

theorem choice {p : Parser α} {ps : List (Parser α)} (h : ∀ q ∈ p :: ps, q.Ensures P) :
    (choice p ps).Ensures P := by
  intro s a e rest hs ha
  unfold Parser.choice at ha
  cases hp : p s with
  | ok a' e' rest' =>
    rw [hp] at ha
    cases ha
    exact h p List.mem_cons_self s _ _ _ hs hp
  | error x =>
    simp only [hp] at ha
    exact choiceAfter (fun q hq => h q (List.mem_cons_of_mem p hq)) s a e rest hs ha

theorem optional {p : Parser α} (hp : p.Ensures P) :
    (optional p).Ensures fun a? => ∀ a ∈ a?, P a := by
  intro s a? e rest hs ha
  unfold Parser.optional at ha
  cases h : p s with
  | ok a e' rest' =>
    rw [h] at ha
    cases ha
    obtain ⟨hPa, hrest⟩ := hp s a _ _ hs h
    refine ⟨?_, hrest⟩
    rintro _ ⟨⟩
    exact hPa
  | error x =>
    rw [h] at ha
    cases ha
    exact ⟨fun _ h => (nomatch h), hs⟩

theorem manyFrom {p : Parser α} (hp : p.Ensures P) (s : Input) (hs : s.IsSpelled) :
    (∀ a ∈ (manyFrom p s).1, P a) ∧ (manyFrom p s).2.2.IsSpelled := by
  fun_induction Parser.manyFrom p s with
  | case1 s e he => exact ⟨fun _ h => (nomatch h), hs⟩
  | case2 s a alt rest ha hlt values alt' rest' hmany ih =>
    obtain ⟨hPa, hrest⟩ := hp s a alt rest hs ha
    obtain ⟨hvalues, hrest'⟩ := ih hrest
    rw [hmany] at hvalues hrest'
    exact ⟨List.forall_mem_cons.mpr ⟨hPa, hvalues⟩, hrest'⟩
  | case3 s a alt rest ha hlt =>
    obtain ⟨hPa, hrest⟩ := hp s a alt rest hs ha
    exact ⟨List.forall_mem_singleton.mpr hPa, hrest⟩

theorem many {p : Parser α} (hp : p.Ensures P) : (many p).Ensures fun as => ∀ a ∈ as, P a := by
  rintro s _ _ _ hs ⟨⟩
  exact manyFrom hp s hs

theorem sepBy1 {p : Parser α} {separator : Parser Unit} (hp : p.Ensures P)
    (hsep : separator.Ensures fun _ => True) :
    (sepBy1 p separator).Ensures fun as => ∀ a ∈ as, P a :=
  hp.bind fun _ ha => (many (hsep.seq fun _ => hp)).bind fun _ has =>
    .pure (List.forall_mem_cons.mpr ⟨ha, has⟩)

theorem sepBy {p : Parser α} {separator : Parser Unit} (hp : p.Ensures P)
    (hsep : separator.Ensures fun _ => True) :
    (sepBy p separator).Ensures fun as => ∀ a ∈ as, P a := by
  refine (optional (sepBy1 hp hsep)).bind fun as? has => .pure ?_
  cases as? with
  | none => exact fun _ h => nomatch h
  | some as => exact has as rfl

theorem tryMap {p : Parser α} {f : α → Except Cause β} (hp : p.Ensures P)
    (hf : ∀ a b, P a → f a = .ok b → Q b) : (tryMap p f).Ensures Q := by
  intro s b e rest hs hb
  unfold Parser.tryMap at hb
  cases h : p s with
  | error x => rw [h] at hb; cases hb
  | ok a e' rest' =>
    obtain ⟨ha, hrest⟩ := hp s a e' rest' hs h
    simp only [h] at hb
    cases h' : f a with
    | error x => rw [h'] at hb; cases hb
    | ok b' =>
      rw [h'] at hb
      cases hb
      exact ⟨hf a b ha h', hrest⟩

/-- A parser that refers to itself ensures what its body ensures when the reference does. -/
theorem tie {body : Parser α → Parser α} (h : ∀ p, p.Ensures P → (body p).Ensures P) :
    Ensures (tie body) P := by
  have below (n : Nat) : ∀ s : Input, s.left = n → ∀ a e rest, s.IsSpelled →
      Parser.tie body s = .ok a e rest → P a ∧ rest.IsSpelled := by
    induction n using Nat.strongRecOn with
    | ind n ih =>
      intro s hn a e rest hs ha
      rw [Parser.tie] at ha
      refine h _ ?_ s a e rest hs ha
      intro t b e' rest' ht hb
      by_cases hlt : t.left < s.left
      · simp only [hlt, if_true] at hb
        exact ih t.left (hn ▸ hlt) t rfl b e' rest' ht hb
      · simp only [hlt, if_false, reduceCtorEq] at hb
  exact fun s => below s.left s rfl

/-! ### Tokens -/

theorem satisfy {expected : List Expected} {f : Token → Option α}
    (h : ∀ t a, t.IsSpelled → f t = some a → P a) : (satisfy expected f).Ensures P := by
  intro s a e rest hs ha
  unfold Parser.satisfy at ha
  cases ht : s.next? with
  | none => simp only [ht, Option.bind_none, reduceCtorEq] at ha
  | some t =>
    cases hf : f t with
    | none => simp only [ht, Option.bind_some, hf, reduceCtorEq] at ha
    | some b =>
      simp only [ht, Option.bind_some, hf] at ha
      cases ha
      exact ⟨h t _ (hs.of_next? ht) hf, hs.advance⟩

theorem satisfy_true {expected : List Expected} {f : Token → Option α} :
    (Parser.satisfy expected f).Ensures fun _ => True :=
  satisfy fun _ _ _ _ => trivial

theorem keyword (k : Keyword) : (keyword k).Ensures fun _ => True := satisfy_true

theorem punct (p : Punct) : (punct p).Ensures fun _ => True := satisfy_true

theorem ident : ident.Ensures IsIdentifier := by
  refine satisfy fun t name ht hname => ?_
  cases t with
  | ident name' =>
    cases hname
    exact ht
  | _ => cases hname

theorem endOfInput : endOfInput.Ensures fun _ => True := by
  intro s a e rest hs ha
  unfold Parser.endOfInput at ha
  split at ha <;> cases ha
  exact ⟨trivial, hs⟩

theorem here : here.Ensures fun _ => True := by
  rintro s _ _ _ hs ⟨⟩
  exact ⟨trivial, hs⟩

theorem between {left right : Punct} {p : Parser α} (hp : p.Ensures P) :
    (between left right p).Ensures P :=
  (punct left).seq fun _ => hp.bind fun _ ha => (punct right).seq fun _ => .pure ha

end Ensures

end Parser

end MiniJava
