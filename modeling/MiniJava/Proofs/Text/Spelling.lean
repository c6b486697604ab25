import MiniJava.Proofs.Text.Partition

/-!
# Reading what has been written out

`spaced` writes tokens out with a space between any two. Many spellings begin like others, `=` like
`==`, `/` like a comment and `int` like a name, but none goes on over a space. So in front of a
space or of the end of the text each spelling is read as the token that it belongs to
(`firstPiece_of_text`), and the tokens are read again as they were (`lexed_spaced`). This holds of
the tokens that a text can spell, and of no others: what is read from any text is such a token
(`isLexical_of_mem_lexed`).
-/

namespace MiniJava

/-- What is read from a text: its tokens, and `none` for each part that is unknown. -/
def lexed (text : List Char) : List (Option Token) :=
  (visiblePieces (pieces 0 text)).map Prod.snd

/-- The spellings of tokens with single spaces between them. -/
def spaced (ts : List Token) : String := " ".intercalate (ts.map Token.text)

variable {c : Char} {cs rest text : List Char} {t : Token} {ts : List Token} {p : Char → Bool}
  {n : Nat}

/-! ## In front of a space -/

/-- Nothing follows, or a space. -/
def IsGapped (rest : List Char) : Prop := rest = [] ∨ ∃ after, rest = ' ' :: after

/-- A run of characters other than the space ends in front of one. -/
theorem IsGapped.takeWhile_append (h : IsGapped rest) (hspace : p ' ' = false)
    (hcs : ∀ d ∈ cs, p d = true) : (cs ++ rest).takeWhile p = cs := by
  rw [List.takeWhile_append_of_pos hcs]
  obtain rfl | ⟨after, rfl⟩ := h
  · exact List.append_nil cs
  · rw [List.takeWhile_cons_of_neg (by rw [hspace]; exact Bool.false_ne_true), List.append_nil]

/-- No blank is part of a word or a number. -/
theorem isBlank_of_isNamePart (h : isNamePart c = true) : isBlank c = false := by
  rw [Bool.eq_false_iff]
  intro hblank
  simp only [isBlank, decide_eq_true_eq, List.mem_cons, List.not_mem_nil, or_false] at hblank
  rcases hblank with rfl | rfl | rfl | rfl | rfl <;> cases h

/-- No number begins like a word. -/
theorem isNameStart_of_isDigit (h : c.isDigit = true) : isNameStart c = false := by
  rw [Bool.eq_false_iff]
  intro hname
  simp only [isNameStart, Bool.or_eq_true, beq_iff_eq] at hname
  obtain (halpha | rfl) | rfl := hname
  · have hdigit : (decide (48 ≤ c.val) && decide (c.val ≤ 57)) = true := h
    have hletter : (decide (65 ≤ c.val ∧ c.val ≤ 90) ||
        (decide (97 ≤ c.val) && decide (c.val ≤ 122))) = true := halpha
    grind
  · cases h
  · cases h

theorem firstPiece_of_isName (h : IsName (c :: cs)) (hrest : IsGapped rest) :
    firstPiece c (cs ++ rest) = (.token (.ofName (String.ofList (c :: cs))), cs.length) := by
  have hblank : isBlank c = false := isBlank_of_isNamePart (h.isNamePart c List.mem_cons_self)
  unfold firstPiece
  rw [if_neg (Bool.eq_false_iff.mp hblank), if_pos h.1, hrest.takeWhile_append rfl h.2]

theorem firstPiece_of_digits (h : ∀ d ∈ c :: cs, d.isDigit = true) (hrest : IsGapped rest) :
    firstPiece c (cs ++ rest) = (.token (.integer (String.ofList (c :: cs))), cs.length) := by
  obtain ⟨hc, hcs⟩ := List.forall_mem_cons.mp h
  have hname : isNameStart c = false := isNameStart_of_isDigit hc
  have hblank : isBlank c = false := isBlank_of_isNamePart (by rw [isNamePart, hc, Bool.or_true])
  unfold firstPiece
  rw [if_neg (Bool.eq_false_iff.mp hblank), if_neg (Bool.eq_false_iff.mp hname), if_pos hc,
    hrest.takeWhile_append rfl hcs]

theorem firstPiece_of_punct {q : Punct} (hq : q.text.toList = c :: cs) (hrest : IsGapped rest) :
    firstPiece c (cs ++ rest) = (.token (.punct q), cs.length) := by
  obtain rfl | ⟨after, rfl⟩ := hrest <;> cases q <;> cases hq <;> rfl

/-- **In front of a space, the spelling of a token is read as the token.** -/
theorem firstPiece_of_text (ht : t.IsLexical) (htext : t.text.toList = c :: cs)
    (hrest : IsGapped rest) : firstPiece c (cs ++ rest) = (.token t, cs.length) := by
  have hspelled : String.ofList (c :: cs) = t.text := by rw [← htext, String.ofList_toList]
  cases t with
  | keyword k =>
    have hname : IsName (c :: cs) := htext ▸ k.isName
    rw [firstPiece_of_isName hname hrest, hspelled]
    simp only [Token.text, Token.ofName, Keyword.ofText?_text]
  | ident name =>
    have hname : IsName (c :: cs) := htext ▸ ht.1
    rw [firstPiece_of_isName hname hrest, hspelled]
    simp only [Token.text, Token.ofName, ht.2]
  | integer digits =>
    have hdigits : ∀ d ∈ c :: cs, d.isDigit = true := htext ▸ ht.2
    rw [firstPiece_of_digits hdigits hrest, hspelled]
    rfl
  | punct q => exact firstPiece_of_punct htext hrest

/-- A spelling begins, and not with a blank. -/
theorem exists_text_eq_cons (ht : t.IsLexical) :
    ∃ c cs, t.text.toList = c :: cs ∧ isBlank c = false := by
  have word {cs : List Char} (hcs : IsName cs) : ∃ c ds, cs = c :: ds ∧ isBlank c = false := by
    cases cs with
    | nil => cases hcs
    | cons c ds => exact ⟨c, ds, rfl, isBlank_of_isNamePart (hcs.isNamePart c List.mem_cons_self)⟩
  cases t with
  | keyword k => exact word k.isName
  | ident name => exact word ht.1
  | punct q => cases q <;> exact ⟨_, _, rfl, by decide⟩
  | integer digits =>
    obtain ⟨c, cs, hdigits⟩ := List.exists_cons_of_ne_nil ht.1
    have hc : c.isDigit = true := ht.2 c (hdigits ▸ List.mem_cons_self)
    exact ⟨c, cs, hdigits, isBlank_of_isNamePart (by rw [isNamePart, hc, Bool.or_true])⟩

/-! ## What is read -/

/-- What is seen of a piece. -/
def PieceKind.seen : PieceKind → List (Option Token)
  | token t => [some t]
  | unknown => [none]
  | blank | comment => []

theorem map_snd_visiblePieces (ps : List Piece) :
    (visiblePieces ps).map Prod.snd = ps.flatMap fun p => p.kind.seen := by
  induction ps with
  | nil => rfl
  | cons p ps ih =>
    rw [List.flatMap_cons, ← ih]
    unfold visiblePieces
    rw [List.filterMap_cons]
    cases p.kind <;> rfl

/-- What is read from a text does not depend on where it stands. -/
theorem flatMap_seen_pieces (offset : Nat) (text : List Char) :
    (pieces offset text).flatMap (fun p => p.kind.seen) = lexed text := by
  unfold lexed
  rw [map_snd_visiblePieces]
  generalize 0 = offset'
  fun_induction pieces offset text generalizing offset' with
  | case1 => rw [pieces]
  | case2 offset c cs kind more hfirst piece ih =>
    rw [pieces, hfirst]
    exact congrArg (kind.seen ++ ·) (ih _)

theorem lexed_nil : lexed [] = [] := by
  rw [← flatMap_seen_pieces 0, pieces]
  rfl

/-- What is read first, and what is read behind it. -/
theorem lexed_cons (c : Char) (cs : List Char) :
    lexed (c :: cs) = (firstPiece c cs).1.seen ++ lexed (cs.drop (firstPiece c cs).2) := by
  rw [← flatMap_seen_pieces 0, pieces, List.flatMap_cons, flatMap_seen_pieces]

/-- The spelling of a token in front of a space. -/
theorem lexed_text_append (ht : t.IsLexical) (hrest : IsGapped rest) :
    lexed (t.text.toList ++ rest) = some t :: lexed rest := by
  obtain ⟨c, cs, htext, -⟩ := exists_text_eq_cons ht
  rw [htext, List.cons_append, lexed_cons, firstPiece_of_text ht htext hrest, List.drop_left]
  rfl

/-- A space in front of a token is skipped. -/
theorem lexed_space_append (ht : t.IsLexical) (rest : List Char) :
    lexed (' ' :: (t.text.toList ++ rest)) = lexed (t.text.toList ++ rest) := by
  obtain ⟨c, cs, htext, hblank⟩ := exists_text_eq_cons ht
  have hfirst : firstPiece ' ' (c :: (cs ++ rest)) = (.blank, 0) := by
    unfold firstPiece
    rw [if_pos (by decide), List.takeWhile_cons_of_neg (Bool.eq_false_iff.mp hblank)]
    rfl
  rw [htext, List.cons_append, lexed_cons, hfirst]
  rfl

/-! ## Tokens that are written out -/

/-- Each token but the first has a space in front of it. -/
theorem toList_spaced_cons (t : Token) (ts : List Token) :
    (spaced (t :: ts)).toList = t.text.toList ++ ts.flatMap fun u => ' ' :: u.text.toList := by
  induction ts generalizing t with
  | nil => simp [spaced]
  | cons u us ih =>
    have hcons : spaced (t :: u :: us) = t.text ++ " " ++ spaced (u :: us) :=
      String.intercalate_cons_cons
    rw [hcons, String.toList_append, String.toList_append, ih, List.append_assoc]
    rfl

theorem isGapped_flatMap (ts : List Token) :
    IsGapped (ts.flatMap fun u => ' ' :: u.text.toList) := by
  cases ts with
  | nil => exact .inl rfl
  | cons u us => exact .inr ⟨_, rfl⟩

/-- **Tokens that a text can spell are read as they have been written out.** -/
theorem lexed_spaced_of_isLexical (h : ∀ t ∈ ts, t.IsLexical) :
    lexed (spaced ts).toList = ts.map some := by
  cases ts with
  | nil => exact lexed_nil
  | cons t ts =>
    rw [toList_spaced_cons]
    induction ts generalizing t with
    | nil =>
      rw [lexed_text_append (h t List.mem_cons_self) (isGapped_flatMap [])]
      exact congrArg (some t :: ·) lexed_nil
    | cons u us ih =>
      obtain ⟨ht, hus⟩ := List.forall_mem_cons.mp h
      rw [lexed_text_append ht (isGapped_flatMap _), List.flatMap_cons, List.cons_append,
        lexed_space_append (hus u List.mem_cons_self), ih u hus]
      rfl

/-- What is read from a text can be spelled. -/
theorem isLexical_of_mem_lexed (h : some t ∈ lexed text) : t.IsLexical := by
  obtain ⟨v, hv, hsnd⟩ := List.mem_map.mp h
  obtain ⟨s, token⟩ := v
  obtain rfl : token = some t := hsnd
  obtain ⟨p, hp, hkind, -⟩ := mem_visiblePieces_some.mp hv
  obtain ⟨after, hfits⟩ := exists_fitsIn hp
  have hlongest := hfits.fits
  rw [hkind] at hlongest
  exact hlongest.2.2.begins.lexical

/-- **Writing tokens out and reading them again changes nothing.** The tokens that a text can spell
are read as they were, and no others are; and the tokens of any text without unknown parts are read
again from their spellings with single spaces between them. -/
theorem lexed_spaced (ts : List Token) :
    ((∀ t ∈ ts, t.IsLexical) ↔ lexed (spaced ts).toList = ts.map some) ∧
      ∀ source : String, lexed source.toList = ts.map some →
        lexed (spaced ts).toList = ts.map some := by
  have spelled {text : List Char} (h : lexed text = ts.map some) : ∀ t ∈ ts, t.IsLexical := by
    intro t ht
    have hmem : some t ∈ lexed text := by
      rw [h]
      exact List.mem_map_of_mem ht
    exact isLexical_of_mem_lexed hmem
  exact ⟨⟨lexed_spaced_of_isLexical, spelled⟩,
    fun source h => lexed_spaced_of_isLexical (spelled h)⟩

/-- A comment, signs that begin like others, and names that begin like reserved words. -/
theorem lexed_spaced_signs :
    let source := "interned==int/*x*/=/ /.../$..1//2\n<!= =x007"
    let ts : List Token := [.ident "interned", .punct .equal, .keyword .intKw, .punct .assign,
      .punct .slash, .punct .slash, .punct .ellipsis, .punct .slash, .ident "$", .punct .dot,
      .punct .dot, .integer "1", .punct .less, .punct .notEqual, .punct .assign, .ident "x007"]
    spaced ts = "interned == int = / / ... / $ . . 1 < != = x007" ∧
      lexed source.toList = ts.map some ∧ lexed (spaced ts).toList = ts.map some := by
  intro source ts
  have h : lexed source.toList = ts.map some := by decide +kernel
  exact ⟨by decide +kernel, h, (lexed_spaced ts).2 source h⟩

end MiniJava
