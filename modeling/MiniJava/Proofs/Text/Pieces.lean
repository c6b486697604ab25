import MiniJava.Proofs.Text.Spans

/-!
# What the pieces of a text are

`PieceKind.Fits` says what a piece of each kind looks like, and what may come behind it. A token is
spelled by the piece and is the longest that the text begins with there (`Token.IsLongest`); a
comment ends at the first place where it can; an unknown piece is a comment without an end, or a
character that begins nothing.

The first piece of a text fits (`firstPiece_fits`), and so does each of its pieces where it stands
(`fitsIn_of_mem_pieces`).
-/

namespace MiniJava

/-! ## Spellings -/

/-- The characters are those of a name. -/
def IsName : List Char → Prop
  | [] => False
  | c :: cs => isNameStart c = true ∧ ∀ d ∈ cs, isNamePart d = true

namespace Token

/-- A text can spell the token: names are no reserved words, and integers have digits only. -/
def IsLexical : Token → Prop
  | keyword _ | punct _ => True
  | ident name => IsName name.toList ∧ Keyword.ofText? name = none
  | integer digits => digits.toList ≠ [] ∧ ∀ c ∈ digits.toList, c.isDigit = true

/-- The text begins with the spelling of the token. -/
structure Begins (t : Token) (text : List Char) : Prop where
  lexical : t.IsLexical
  spelled : t.text.toList <+: text

/-- The text begins with the spelling of the token, and with that of no longer one. -/
structure IsLongest (t : Token) (text : List Char) : Prop where
  begins : t.Begins text
  longest : ∀ u : Token, u.Begins text → u.text.toList.length ≤ t.text.toList.length

end Token

/-! ## Comments -/

/-- The text begins with two slashes, or with slash and star. -/
def OpensComment (text : List Char) : Prop := ['/', '/'] <+: text ∨ ['/', '*'] <+: text

/-- Two slashes and the rest of the line, which ends before a line feed or with the text. -/
def IsLineComment (comment after : List Char) : Prop :=
  ∃ body, comment = '/' :: '/' :: body ∧ '\n' ∉ body ∧ ∀ c ∈ after.head?, c = '\n'

/-- A comment from slash and star to the first star and slash behind them. -/
def IsBlockComment (comment : List Char) : Prop :=
  ∃ body, comment = '/' :: '*' :: (body ++ ['*', '/']) ∧ ¬ ['*', '/'] <:+: body ++ ['*']

/-- Slash and star, and no star and slash behind them. -/
def IsOpenComment (comment : List Char) : Prop :=
  ∃ body, comment = '/' :: '*' :: body ∧ ¬ ['*', '/'] <:+: body

/-! ## Kinds -/

/-- The characters are blanks. -/
def IsBlankRun (cs : List Char) : Prop := cs ≠ [] ∧ ∀ c ∈ cs, isBlank c = true

/-- A character that is no blank and begins neither a token nor a comment. -/
def IsStray (c : Char) (after : List Char) : Prop :=
  isBlank c = false ∧ ¬ OpensComment (c :: after) ∧ ∀ t : Token, ¬ t.Begins (c :: after)

/-- What a piece of the kind looks like in front of what comes after it. -/
def PieceKind.Fits (piece after : List Char) : PieceKind → Prop
  | token t =>
    t.text.toList = piece ∧ ¬ OpensComment (piece ++ after) ∧ t.IsLongest (piece ++ after)
  | blank => IsBlankRun piece
  | comment => IsLineComment piece after ∨ IsBlockComment piece
  | unknown => IsOpenComment piece ∧ after = [] ∨ ∃ c, piece = [c] ∧ IsStray c after

variable {c : Char} {cs ds : List Char} {t u : Token} {p : Char → Bool}

/-! ## Runs of characters -/

theorem take_length_takeWhile (p : Char → Bool) (cs : List Char) :
    cs.take (cs.takeWhile p).length = cs.takeWhile p :=
  (List.prefix_iff_eq_take.mp (List.takeWhile_prefix p)).symm

theorem drop_length_takeWhile (p : Char → Bool) (cs : List Char) :
    cs.drop (cs.takeWhile p).length = cs.dropWhile p := by
  refine (List.append_right_inj (cs.takeWhile p)).mp ?_
  rw [List.takeWhile_append_dropWhile]
  nth_rewrite 1 [← take_length_takeWhile p cs]
  exact List.take_append_drop _ _

/-- No longer run of such characters is at the beginning. -/
theorem length_le_length_takeWhile (hds : ∀ d ∈ ds, p d = true) (h : ds <+: cs) :
    ds.length ≤ (cs.takeWhile p).length := by
  obtain ⟨rest, rfl⟩ := h
  rw [List.takeWhile_append_of_pos hds, List.length_append]
  exact Nat.le_add_right _ _

/-! ## The first character of a token -/

/-- The words of the language are names. -/
theorem Keyword.isName (k : Keyword) : IsName k.text.toList := by
  cases k <;> exact ⟨by decide, List.all_eq_true.mp (by decide)⟩

theorem IsName.isNameStart (h : IsName ds) (hfront : ds <+: c :: cs) : isNameStart c = true := by
  cases ds with
  | nil => cases h
  | cons d ds =>
    obtain ⟨rfl, -⟩ := List.cons_prefix_cons.mp hfront
    exact h.1

theorem IsName.isNamePart (h : IsName ds) : ∀ d ∈ ds, isNamePart d = true := by
  cases ds with
  | nil => cases h
  | cons d ds =>
    refine List.forall_mem_cons.mpr ⟨?_, h.2⟩
    rw [MiniJava.isNamePart, h.1, Bool.true_or]

/-- No sign begins like a word or a number. -/
theorem Punct.starts {q : Punct} (h : q.text.toList <+: c :: cs) :
    isNameStart c = false ∧ c.isDigit = false := by
  obtain ⟨d, ds, hq, hd⟩ : ∃ d ds, q.text.toList = d :: ds ∧
      isNameStart d = false ∧ d.isDigit = false := by
    cases q <;> exact ⟨_, _, rfl, by decide, by decide⟩
  rw [hq] at h
  obtain ⟨rfl, -⟩ := List.cons_prefix_cons.mp h
  exact hd

/-- The first character of a token tells words, numbers and signs apart. -/
theorem Token.Begins.cases (h : u.Begins (c :: cs)) :
    (isNameStart c = true ∧ ∀ d ∈ u.text.toList, isNamePart d = true) ∨
    (c.isDigit = true ∧ ∀ d ∈ u.text.toList, d.isDigit = true) ∨
    (isNameStart c = false ∧ c.isDigit = false ∧ ∃ q, u = .punct q) := by
  obtain ⟨hlexical, hfront⟩ := h
  cases u with
  | keyword k => exact .inl ⟨k.isName.isNameStart hfront, k.isName.isNamePart⟩
  | ident name => exact .inl ⟨hlexical.1.isNameStart hfront, hlexical.1.isNamePart⟩
  | integer digits =>
    refine .inr (.inl ⟨?_, hlexical.2⟩)
    change digits.toList <+: c :: cs at hfront
    cases hdigits : digits.toList with
    | nil => exact absurd hdigits hlexical.1
    | cons d ds =>
      rw [hdigits] at hfront
      obtain ⟨rfl, -⟩ := List.cons_prefix_cons.mp hfront
      exact hlexical.2 d (hdigits ▸ List.mem_cons_self)
  | punct q =>
    obtain ⟨hname, hdigit⟩ := Punct.starts hfront
    exact .inr (.inr ⟨hname, hdigit, q, rfl⟩)

/-! ## Words and numbers -/

theorem Token.text_ofName (name : String) : (ofName name).text = name := by
  unfold ofName
  split
  · rename_i k hk
    exact eq_of_beq (List.find?_some (p := fun k : Keyword => k.text == name) hk)
  · rfl

theorem Token.isLexical_ofName {name : String} (h : IsName name.toList) :
    (ofName name).IsLexical := by
  unfold ofName
  split
  · exact trivial
  · exact ⟨h, ‹_›⟩

/-! ## Signs -/

namespace Punct

variable {q : Punct} {n : Nat}

theorem text_of_read? (h : read? c cs = some (q, n)) : q.text.toList = c :: cs.take n := by
  unfold read? at h
  split at h <;> cases h <;> rfl

/-- Where a sign begins, one is read that is no shorter. -/
theorem exists_read?_eq_some (h : q.text.toList <+: c :: cs) :
    ∃ r n, read? c cs = some (r, n) ∧ q.text.toList.length ≤ r.text.toList.length := by
  obtain ⟨rest, hrest⟩ := h
  cases q with
  | assign | bang | less | greater | dot =>
    -- These begin longer signs.
    simp only [text, String.reduceToList, List.cons_append, List.nil_append,
      List.cons.injEq] at hrest
    obtain ⟨rfl, rfl⟩ := hrest
    unfold read?
    split <;> first | exact ⟨_, _, rfl, by decide⟩ | contradiction
  | _ =>
    obtain ⟨rfl, rfl⟩ := List.cons.inj hrest
    exact ⟨_, _, rfl, by decide⟩

end Punct

/-! ## The end of a comment -/

theorem exists_of_commentEnd?_eq_some {n : Nat} (h : commentEnd? cs = some n) :
    ∃ body, cs.take n = body ++ ['*', '/'] ∧ ¬ ['*', '/'] <:+: body ++ ['*'] := by
  fun_induction commentEnd? cs generalizing n with
  | case1 rest =>
    cases h
    exact ⟨[], rfl, fun hinfix => absurd hinfix.length_le (by decide)⟩
  | case2 c cs hnot ih =>
    obtain ⟨m, hm, rfl⟩ := Option.map_eq_some_iff.mp h
    obtain ⟨body, htake, hbody⟩ := ih hm
    refine ⟨c :: body, congrArg (c :: ·) htake, fun hinfix => ?_⟩
    rw [List.cons_append, List.infix_cons_iff] at hinfix
    rcases hinfix with hfront | hinfix
    · cases body with
      | nil => exact absurd (List.cons_prefix_cons.mp hfront).2 (by decide)
      | cons d body =>
        -- Then a star and slash come first in the text.
        obtain ⟨rfl, hslash⟩ := List.cons_prefix_cons.mp hfront
        obtain ⟨rfl, -⟩ := List.cons_prefix_cons.mp hslash
        have hcs : cs = '/' :: (body ++ ['*', '/'] ++ cs.drop m) :=
          (List.take_append_drop m cs).symm.trans (congrArg (· ++ cs.drop m) htake)
        exact hnot _ rfl hcs
    · exact hbody hinfix
  | case3 => cases h

theorem not_infix_of_commentEnd?_eq_none (h : commentEnd? cs = none) : ¬ ['*', '/'] <:+: cs := by
  fun_induction commentEnd? cs with
  | case1 rest => cases h
  | case2 c cs hnot ih =>
    rw [List.infix_cons_iff]
    rintro (⟨rest, hrest⟩ | hinfix)
    · cases hrest
      exact hnot rest rfl rfl
    · exact ih (Option.map_eq_none_iff.mp h) hinfix
  | case3 => exact fun hinfix => absurd hinfix.length_le (by decide)

/-! ## The first piece -/

theorem not_opensComment (hline : ∀ rest, c = '/' → cs ≠ '/' :: rest)
    (hblock : ∀ rest, c = '/' → cs ≠ '*' :: rest) : ¬ OpensComment (c :: cs) := by
  rintro (⟨rest, hrest⟩ | ⟨rest, hrest⟩) <;> cases hrest
  · exact hline rest rfl rfl
  · exact hblock rest rfl rfl

theorem not_opensComment_of_ne (hc : c ≠ '/') : ¬ OpensComment (c :: cs) :=
  not_opensComment (fun _ h => absurd h hc) fun _ h => absurd h hc

/-- A token that takes all characters of a sort is the longest, if all tokens there are of these. -/
theorem Token.isLongest_of_takeWhile (ht : t.IsLexical) (htext : t.text.toList = cs.takeWhile p)
    (hall : ∀ u : Token, u.Begins cs → ∀ d ∈ u.text.toList, p d = true) : t.IsLongest cs := by
  refine ⟨⟨ht, htext ▸ List.takeWhile_prefix p⟩, fun u hu => ?_⟩
  rw [htext]
  exact length_le_length_takeWhile (hall u hu) hu.spelled

/-- A word goes on as long as it can. -/
theorem isLongest_ofName (hc : isNameStart c = true) :
    (Token.ofName (String.ofList (c :: cs.takeWhile isNamePart))).IsLongest (c :: cs) := by
  have hpart : isNamePart c = true := by rw [isNamePart, hc, Bool.true_or]
  refine Token.isLongest_of_takeWhile (p := isNamePart) (Token.isLexical_ofName ?_) ?_
    fun u hu => ?_
  · rw [String.toList_ofList]
    exact ⟨hc, fun d hd => List.mem_takeWhile_imp hd⟩
  · rw [Token.text_ofName, String.toList_ofList, List.takeWhile_cons_of_pos hpart]
  · rcases hu.cases with ⟨-, hword⟩ | ⟨-, hdigits⟩ | ⟨hname, -⟩
    · exact hword
    · exact fun d hd => by rw [isNamePart, hdigits d hd, Bool.or_true]
    · exact absurd (hname.symm.trans hc) Bool.false_ne_true

/-- A number goes on as long as it can. -/
theorem isLongest_integer (hname : isNameStart c = false) (hc : c.isDigit = true) :
    (Token.integer (String.ofList (c :: cs.takeWhile Char.isDigit))).IsLongest (c :: cs) := by
  refine Token.isLongest_of_takeWhile (p := Char.isDigit) ⟨?_, ?_⟩ ?_ fun u hu => ?_
  · rw [String.toList_ofList]
    exact List.cons_ne_nil _ _
  · rw [String.toList_ofList]
    exact List.forall_mem_cons.mpr ⟨hc, fun d hd => List.mem_takeWhile_imp hd⟩
  · exact String.toList_ofList.trans (List.takeWhile_cons_of_pos hc).symm
  · rcases hu.cases with ⟨hstart, -⟩ | ⟨-, hdigits⟩ | ⟨-, hdigit, -⟩
    · exact absurd (hname.symm.trans hstart) Bool.false_ne_true
    · exact hdigits
    · exact absurd (hdigit.symm.trans hc) Bool.false_ne_true

/-- Where no word and no number begins, only signs do. -/
theorem Token.Begins.eq_punct (h : u.Begins (c :: cs)) (hname : isNameStart c = false)
    (hdigit : c.isDigit = false) : ∃ q, u = .punct q ∧ q.text.toList <+: c :: cs := by
  rcases h.cases with ⟨hstart, -⟩ | ⟨hstart, -⟩ | ⟨-, -, q, rfl⟩
  · exact absurd (hname.symm.trans hstart) Bool.false_ne_true
  · exact absurd (hdigit.symm.trans hstart) Bool.false_ne_true
  · exact ⟨q, rfl, h.spelled⟩

/-- A sign that is read is the longest token. -/
theorem isLongest_punct (hname : isNameStart c = false) (hdigit : c.isDigit = false) {q : Punct}
    {n : Nat} (h : Punct.read? c cs = some (q, n)) : (Token.punct q).IsLongest (c :: cs) := by
  refine ⟨⟨trivial, ?_⟩, fun u hu => ?_⟩
  · have htext : (Token.punct q).text.toList = c :: cs.take n := Punct.text_of_read? h
    rw [htext]
    exact (List.prefix_cons_inj c).mpr (List.take_prefix n cs)
  · obtain ⟨r, rfl, hr⟩ := hu.eq_punct hname hdigit
    obtain ⟨q', n', hread, hle⟩ := Punct.exists_read?_eq_some hr
    obtain ⟨rfl, -⟩ := Prod.mk.inj (Option.some.inj (h.symm.trans hread))
    exact hle

theorem fits_token {n : Nat} (htext : t.text.toList = c :: cs.take n)
    (hcomment : ¬ OpensComment (c :: cs)) (h : t.IsLongest (c :: cs)) :
    (PieceKind.token t).Fits (c :: cs.take n) (cs.drop n) := by
  have hwhole : c :: cs.take n ++ cs.drop n = c :: cs := by
    rw [List.cons_append, List.take_append_drop]
  exact ⟨htext, by rwa [hwhole], by rwa [hwhole]⟩

theorem isLineComment (cs : List Char) :
    IsLineComment ('/' :: '/' :: cs.takeWhile (· != '\n')) (cs.dropWhile (· != '\n')) := by
  refine ⟨_, rfl, fun hmem => ?_, fun c hc => ?_⟩
  · cases List.mem_takeWhile_imp hmem
  · have hstop := List.head?_dropWhile_not (· != '\n') cs
    rw [Option.mem_def.mp hc] at hstop
    simpa using hstop

/-- What is neither a blank nor a word nor a number is a comment, a sign, or unknown. -/
theorem firstPiece_fits_of_not_word (hblank : isBlank c = false) (hname : isNameStart c = false)
    (hdigit : c.isDigit = false) :
    (firstPiece c cs).1.Fits (c :: cs.take (firstPiece c cs).2) (cs.drop (firstPiece c cs).2) := by
  unfold firstPiece
  simp only [hblank, hname, hdigit, Bool.false_eq_true, if_false]
  split
  · rename_i rest
    rw [List.take_succ_cons, List.drop_succ_cons, take_length_takeWhile, drop_length_takeWhile]
    exact .inl (isLineComment rest)
  · rename_i rest
    cases hend : commentEnd? rest with
    | some n =>
      obtain ⟨body, htake, hbody⟩ := exists_of_commentEnd?_eq_some hend
      refine .inr ⟨body, ?_, hbody⟩
      rw [List.take_succ_cons, htake]
    | none =>
      refine .inl ⟨⟨rest, ?_, not_infix_of_commentEnd?_eq_none hend⟩, List.drop_length⟩
      rw [List.take_length]
  · rename_i hline hblock
    have hcomment : ¬ OpensComment (c :: cs) := not_opensComment hline hblock
    cases hread : Punct.read? c cs with
    | some r =>
      obtain ⟨q, n⟩ := r
      exact fits_token (Punct.text_of_read? hread) hcomment (isLongest_punct hname hdigit hread)
    | none =>
      refine .inr ⟨c, rfl, hblank, hcomment, fun u hu => ?_⟩
      obtain ⟨q, rfl, hq⟩ := hu.eq_punct hname hdigit
      obtain ⟨r, n, hread', -⟩ := Punct.exists_read?_eq_some hq
      cases hread.symm.trans hread'

/-- **The first piece of a text is of its kind.** -/
theorem firstPiece_fits (c : Char) (cs : List Char) :
    (firstPiece c cs).1.Fits (c :: cs.take (firstPiece c cs).2) (cs.drop (firstPiece c cs).2) := by
  by_cases hblank : isBlank c = true
  · have hfirst : firstPiece c cs = (.blank, (cs.takeWhile isBlank).length) := if_pos hblank
    rw [hfirst, take_length_takeWhile]
    exact ⟨List.cons_ne_nil _ _,
      List.forall_mem_cons.mpr ⟨hblank, fun d hd => List.mem_takeWhile_imp hd⟩⟩
  by_cases hname : isNameStart c = true
  · have hfirst : firstPiece c cs =
        (.token (.ofName (String.ofList (c :: cs.takeWhile isNamePart))),
          (cs.takeWhile isNamePart).length) :=
      (if_neg hblank).trans (if_pos hname)
    rw [hfirst]
    refine fits_token ?_ (not_opensComment_of_ne ?_) (isLongest_ofName hname)
    · rw [Token.text_ofName, String.toList_ofList, take_length_takeWhile]
    · rintro rfl
      cases hname
  by_cases hdigit : c.isDigit = true
  · have hfirst : firstPiece c cs =
        (.token (.integer (String.ofList (c :: cs.takeWhile Char.isDigit))),
          (cs.takeWhile Char.isDigit).length) :=
      (if_neg hblank).trans ((if_neg hname).trans (if_pos hdigit))
    rw [hfirst]
    refine fits_token ?_ (not_opensComment_of_ne ?_)
      (isLongest_integer (Bool.eq_false_iff.mpr hname) hdigit)
    · rw [take_length_takeWhile]
      exact String.toList_ofList
    · rintro rfl
      cases hdigit
  exact firstPiece_fits_of_not_word (Bool.eq_false_iff.mpr hblank) (Bool.eq_false_iff.mpr hname)
    (Bool.eq_false_iff.mpr hdigit)

/-! ## All pieces -/

/-- The span takes up this part of a text, behind some text and in front of the rest. -/
def Span.Marks (s : Span) (text part after : List Char) : Prop :=
  ∃ before, text = before ++ (part ++ after) ∧
    s = ⟨byteLength before, byteLength before + byteLength part⟩

/-- The piece stands in the text, in front of this rest, and is of its kind. -/
structure Piece.FitsIn (p : Piece) (text after : List Char) : Prop where
  ne_nil : p.text ≠ []
  marks : p.span.Marks text p.text after
  fits : p.kind.Fits p.text after

/-- **Each piece of a text is of its kind.** -/
theorem fitsIn_of_mem_pieces (before cs : List Char) :
    ∀ p ∈ pieces (byteLength before) cs, ∃ after, p.FitsIn (before ++ cs) after := by
  generalize hoffset : byteLength before = offset
  fun_induction pieces offset cs generalizing before with
  | case1 => exact List.forall_mem_nil _
  | case2 offset c cs kind more hfirst piece ih =>
    subst hoffset
    have hcs : piece.text ++ cs.drop more = c :: cs := by
      rw [List.cons_append, List.take_append_drop]
    refine List.forall_mem_cons.mpr
      ⟨⟨cs.drop more, List.cons_ne_nil _ _, ⟨before, ?_, rfl⟩, ?_⟩, fun p hp => ?_⟩
    · rw [hcs]
    · have hfits := firstPiece_fits c cs
      rwa [hfirst] at hfits
    · have hrest := ih (before ++ piece.text) (byteLength_append _ _) p hp
      rwa [List.append_assoc, hcs] at hrest

/-- Every byte of the text is in one of its pieces. -/
theorem exists_piece_of_lt {offset o : Nat} {cs : List Char} (hle : offset ≤ o)
    (hlt : o < offset + byteLength cs) :
    ∃ p ∈ pieces offset cs, p.span.start ≤ o ∧ o < p.span.stop := by
  fun_induction pieces offset cs with
  | case1 => exact absurd (Nat.lt_of_lt_of_le hlt hle) (Nat.lt_irrefl _)
  | case2 offset c cs kind more hfirst piece ih =>
    have hlength : byteLength (c :: cs) = byteLength piece.text + byteLength (cs.drop more) := by
      rw [← byteLength_append, List.cons_append, List.take_append_drop]
    obtain ho | ho := Nat.lt_or_ge o (offset + byteLength piece.text)
    · exact ⟨piece, List.mem_cons_self, hle, ho⟩
    · obtain ⟨p, hp, hspan⟩ := ih ho (by omega)
      exact ⟨p, List.mem_cons_of_mem _ hp, hspan⟩

end MiniJava
