import MiniJava.Grammar.Declaration
import MiniJava.Proofs.Text.Spans

/-!
# Where parsers point

`p.Points text` says of a parser that runs on tokens of a text: every failure that it meets, on the
way or in the end, has a span within the text. The tokens that are left must lie within the text one
behind the other, since a failure may span several of them (`Input.IsPlaced.spanTo`).

There is one lemma for each combinator. A parser that refers to itself points into the text if its
body does whenever the reference does (`Points.tie`). With these all productions of the grammar
point into the text (`Grammar.program_points`); they come in its order, each with the parsers for
its parts.
-/

namespace MiniJava

/-! ## Inputs -/

/-- What is left lies within the text, one token behind the other. -/
structure Input.IsPlaced (text : List Char) (s : Input) : Prop where
  within : ∀ l ∈ s.rest, l.span.Within text
  ordered : s.rest.Pairwise fun l m => l.span.stop ≤ m.span.start
  endOffset : s.endOffset = byteLength text

theorem Input.isPlaced_ofPieces (text : List Char) :
    (Input.ofPieces (byteLength text) (pieces 0 text)).IsPlaced text where
  within l hl := by
    obtain ⟨p, hp, hspan⟩ := exists_piece_of_mem_lexemes hl
    exact hspan ▸ pieces_within [] text p hp
  ordered := lexemes_ordered 0 text
  endOffset := rfl

namespace Input.IsPlaced

variable {text : List Char} {s : Input}

theorem advance (h : s.IsPlaced text) : s.advance.IsPlaced text where
  within l hl := h.within l (List.mem_of_mem_tail hl)
  ordered := h.ordered.sublist (List.tail_sublist _)
  endOffset := h.endOffset

theorem span (h : s.IsPlaced text) : s.span.Within text := by
  unfold Input.span
  split
  · rename_i l ls hrest
    exact h.within l (hrest ▸ List.mem_cons_self)
  · rw [h.endOffset]
    exact ⟨Nat.le_refl _, .end text, .end text⟩

theorem stuck (h : s.IsPlaced text) (expected : List Expected) :
    (s.stuck expected).span.Within text := h.span

/-- A span over several tokens ends with the last of them, which is the first or behind it. -/
theorem spanTo (h : s.IsPlaced text) (later : Input) : (s.spanTo later).Within text := by
  unfold Input.spanTo
  extract_lets read
  have hspan := h.span
  cases hlast : read.getLast? with
  | none => exact ⟨Nat.le_refl _, hspan.start, hspan.start⟩
  | some m =>
    have hm : m ∈ s.rest := List.mem_of_mem_take (List.mem_of_getLast? hlast)
    refine ⟨?_, hspan.start, (h.within m hm).stop⟩
    cases hrest : s.rest with
    | nil =>
      rw [hrest] at hm
      cases hm
    | cons l ls =>
      have hfirst : s.span = l.span := by rw [Input.span, hrest]
      rw [hfirst]
      have hm' := hm
      rw [hrest] at hm'
      have hordered := h.ordered
      rw [hrest] at hordered
      rcases List.mem_cons.mp hm' with rfl | hmem
      · exact (h.within m hm).le
      · have hl := (h.within l (hrest ▸ List.mem_cons_self)).le
        have hlm := List.rel_of_pairwise_cons hordered hmem
        have hstop := (h.within m hm).le
        change l.span.start ≤ m.span.stop
        omega

end Input.IsPlaced

/-! ## Failures -/

namespace Failure

variable {text : List Char} {x y : Failure}

theorem within_furthest (hx : x.span.Within text) (hy : y.span.Within text) :
    (furthest x y).span.Within text := by
  unfold furthest
  split
  · exact hy
  split <;> exact hx

theorem within_furthest? (hx : x.span.Within text) {a : Option Failure}
    (ha : ∀ y ∈ a, y.span.Within text) : (x.furthest? a).span.Within text := by
  cases a with
  | none => exact hx
  | some y => exact within_furthest hx (ha y rfl)

theorem within_merge {a b : Option Failure} (ha : ∀ y ∈ a, y.span.Within text)
    (hb : ∀ y ∈ b, y.span.Within text) : ∀ y ∈ merge a b, y.span.Within text := by
  cases a with
  | none => exact hb
  | some x =>
    cases b with
    | none => exact ha
    | some y =>
      rintro _ ⟨⟩
      exact within_furthest (hb y rfl) (ha x rfl)

end Failure

variable {text : List Char} {α β : Type}

/-- An outcome whose failures point into the text. -/
inductive Outcome.Points (text : List Char) : Outcome α → Prop
  | ok {a : α} {x : Option Failure} {r : Input} (furthest : ∀ y ∈ x, y.span.Within text)
    (rest : r.IsPlaced text) : Points text (.ok a x r)
  | error {x : Failure} (failure : x.span.Within text) : Points text (.error x)

namespace Parser

/-- On tokens of the text, failures point into the text. -/
def Points (text : List Char) (p : Parser α) : Prop :=
  ∀ s : Input, s.IsPlaced text → (p s).Points text

namespace Points

variable {p q : Parser α}

/-! ## The combinators -/

protected theorem pure {a : α} : Points text (Pure.pure a) := fun _ hs => .ok nofun hs

protected theorem bind {k : α → Parser β} (h : Points text p) (hk : ∀ a, Points text (k a)) :
    Points text (p >>= k) := by
  intro s hs
  change (Parser.bind p k s).Points text
  unfold Parser.bind
  match p s, h s hs with
  | _, .error failure => exact .error failure
  | .ok a x r, .ok furthest rest =>
    dsimp only
    match k a r, hk a r rest with
    | _, .error failure => exact .error (Failure.within_furthest? failure furthest)
    | _, .ok furthest' rest' => exact .ok (Failure.within_merge furthest furthest') rest'

theorem orElse (hp : Points text p) (hq : Points text q) : Points text (p <|> q) := by
  intro s hs
  change (Parser.orElse p q s).Points text
  unfold Parser.orElse
  match p s, hp s hs with
  | _, .ok furthest rest => exact .ok furthest rest
  | .error x, .error failure =>
    dsimp only
    match q s, hq s hs with
    | _, .ok furthest rest => exact .ok furthest rest
    | _, .error failure' => exact .error (Failure.within_furthest failure failure')

theorem choiceAfter {ps : List (Parser α)} (h : ∀ p ∈ ps, Points text p) {x : Failure}
    (hx : x.span.Within text) : Points text (choiceAfter x ps) := by
  induction ps generalizing x with
  | nil => exact fun _ _ => .error hx
  | cons p ps ih =>
    obtain ⟨hp, hps⟩ := List.forall_mem_cons.mp h
    intro s hs
    unfold Parser.choiceAfter
    match p s, hp s hs with
    | _, .ok furthest rest => exact .ok furthest rest
    | .error y, .error failure => exact ih hps (Failure.within_furthest failure hx) s hs

theorem choice {ps : List (Parser α)} (h : ∀ q ∈ p :: ps, Points text q) :
    Points text (choice p ps) := by
  obtain ⟨hp, hps⟩ := List.forall_mem_cons.mp h
  intro s hs
  unfold Parser.choice
  match p s, hp s hs with
  | _, .ok furthest rest => exact .ok furthest rest
  | .error x, .error failure => exact choiceAfter hps failure s hs

theorem optional (h : Points text p) : Points text (optional p) := by
  intro s hs
  unfold Parser.optional
  match p s, h s hs with
  | .ok a x r, .ok furthest rest => exact .ok furthest rest
  | .error x, .error failure =>
    refine .ok ?_ hs
    rintro _ ⟨⟩
    exact failure

theorem manyFrom (h : Points text p) (s : Input) (hs : s.IsPlaced text) :
    (∀ y ∈ (manyFrom p s).2.1, y.span.Within text) ∧ (manyFrom p s).2.2.IsPlaced text := by
  fun_induction Parser.manyFrom p s with
  | case1 s e he =>
    have hfailure := h s hs
    rw [he] at hfailure
    cases hfailure with
    | error failure =>
      refine ⟨?_, hs⟩
      rintro _ ⟨⟩
      exact failure
  | case2 s a alt rest ha hlt values alt' rest' hmany ih =>
    have hread := h s hs
    rw [ha] at hread
    cases hread with
    | ok furthest hrest =>
      obtain ⟨halt, hrest'⟩ := ih hrest
      rw [hmany] at halt hrest'
      exact ⟨Failure.within_merge furthest halt, hrest'⟩
  | case3 s a alt rest ha hlt =>
    have hread := h s hs
    rw [ha] at hread
    cases hread with
    | ok furthest hrest => exact ⟨furthest, hrest⟩

theorem many (h : Points text p) : Points text (many p) := by
  intro s hs
  obtain ⟨hfurthest, hrest⟩ := manyFrom h s hs
  exact .ok hfurthest hrest

theorem sepBy1 (h : Points text p) {separator : Parser Unit} (hsep : Points text separator) :
    Points text (sepBy1 p separator) :=
  h.bind fun _ => (many (hsep.bind fun _ => h)).bind fun _ => .pure

theorem sepBy (h : Points text p) {separator : Parser Unit} (hsep : Points text separator) :
    Points text (sepBy p separator) :=
  (optional (sepBy1 h hsep)).bind fun _ => .pure

/-- A refusal spans what was read. -/
theorem tryMap {k : α → Except Cause β} (h : Points text p) : Points text (tryMap p k) := by
  intro s hs
  unfold Parser.tryMap
  match p s, h s hs with
  | _, .error failure => exact .error failure
  | .ok a x r, .ok furthest rest =>
    dsimp only
    cases k a with
    | ok b => exact .ok furthest rest
    | error cause => exact .error (hs.spanTo r)

theorem tie {body : Parser α → Parser α} (h : ∀ p, Points text p → Points text (body p)) :
    Points text (tie body) := by
  intro s hs
  induction hn : s.left using Nat.strongRecOn generalizing s with
  | ind n ih =>
    subst hn
    rw [Parser.tie]
    refine h _ (fun t ht => ?_) s hs
    by_cases hlt : t.left < s.left
    · simp only [hlt, if_true]
      exact ih t.left hlt t ht rfl
    · simp only [hlt, if_false]
      exact .error (ht.stuck [])

/-! ## Tokens -/

theorem satisfy {expected : List Expected} {k : Token → Option α} :
    Points text (satisfy expected k) := by
  intro s hs
  unfold Parser.satisfy
  split
  · exact .ok nofun hs.advance
  · exact .error (hs.stuck expected)

theorem keyword (k : Keyword) : Points text (keyword k) := satisfy

theorem punct (p : Punct) : Points text (punct p) := satisfy

theorem ident : Points text ident := satisfy

theorem endOfInput : Points text endOfInput := by
  intro s hs
  unfold Parser.endOfInput
  split
  · exact .ok nofun hs
  · exact .error (hs.stuck _)

theorem here : Points text here := fun _ hs => .ok nofun hs

theorem between (left right : Punct) (h : Points text p) : Points text (between left right p) :=
  (punct left).bind fun _ => h.bind fun _ => (punct right).bind fun _ => .pure

theorem commaSeparated (h : Points text p) : Points text (Parser.sepBy p (Parser.punct .comma)) :=
  sepBy h (punct .comma)

end Points

end Parser

namespace Grammar

open MiniJava.Parser

variable {text : List Char} {expr stmt : Parser RawNode}

/-! ## Expressions -/

theorem atom_points (h : Points text expr) : Points text (atom expr) := by
  have hliteral {k : Token → Option String} {make : Nat → String → RawNode} :
      Points text (do let start ← Parser.here; let value ← satisfy [] k; return make start value) :=
    Points.here.bind fun _ => Points.satisfy.bind fun _ => .pure
  have hthis : Points text thisExpr :=
    Points.here.bind fun _ => (Points.keyword _).bind fun _ => .pure
  have hnewArray : Points text (newArray expr) :=
    Points.here.bind fun _ => (Points.keyword _).bind fun _ => Points.satisfy.bind fun _ =>
      (Points.between _ _ h).bind fun _ => .pure
  have hnewObject : Points text newObject :=
    Points.here.bind fun _ => (Points.keyword _).bind fun _ => Points.ident.bind fun _ =>
      (Points.punct _).bind fun _ => (Points.punct _).bind fun _ => .pure
  have harray : Points text (arrayLiteral expr) :=
    Points.here.bind fun _ => (Points.between _ _ (.commaSeparated h)).bind fun _ => .pure
  have hparenthesis : Points text (parenthesis expr) :=
    Points.here.bind fun _ => (Points.between _ _ h).bind fun _ => .pure
  refine .choice ?_
  simp only [List.forall_mem_cons]
  exact ⟨hliteral, hliteral, hthis, hnewArray, hnewObject, harray, hparenthesis, hliteral, nofun⟩

theorem selection_points (h : Points text expr) : Points text (selection expr) := by
  have hsubscript : Points text (subscript expr) := (Points.between _ _ h).bind fun _ => .pure
  have hmember : Points text (member expr) :=
    .tryMap ((Points.punct _).bind fun _ => Points.ident.bind fun _ =>
      (Points.optional (Points.between _ _ (.commaSeparated h))).bind fun _ => .pure)
  exact (atom_points h).bind fun _ => (Points.many (.orElse hsubscript hmember)).bind fun _ => .pure

theorem negation_points (h : Points text expr) : Points text (negation expr) :=
  (Points.many (Points.here.bind fun _ => (Points.punct _).bind fun _ => .pure)).bind fun _ =>
    (selection_points h).bind fun _ => .pure

theorem operator_points (p : Punct) : Points text (operator p) :=
  (Points.punct p).bind fun _ => .pure

theorem leftGrouped_points {operand : Parser RawNode} {op : Parser String}
    (h : Points text operand) (hop : Points text op) : Points text (leftGrouped operand op) :=
  h.bind fun _ => (Points.many (hop.bind fun _ => h.bind fun _ => .pure)).bind fun _ => .pure

theorem expression_points : Points text expression := by
  refine .tie fun expr h => ?_
  have hproduct := leftGrouped_points (negation_points h)
    (.orElse (operator_points .star) (operator_points .slash))
  have hsum := leftGrouped_points hproduct
    (.orElse (operator_points .plus) (operator_points .minus))
  have hcompare : Points text (choice (operator .lessEqual)
      [operator .greaterEqual, operator .less, operator .greater]) := by
    refine .choice ?_
    simp only [List.forall_mem_cons]
    exact ⟨operator_points _, operator_points _, operator_points _, operator_points _, nofun⟩
  have hequality := leftGrouped_points (leftGrouped_points hsum hcompare)
    (.orElse (operator_points .equal) (operator_points .notEqual))
  exact leftGrouped_points (leftGrouped_points hequality (operator_points .andAnd))
    (operator_points .orOr)

/-! ## Statements -/

theorem condition_points : Points text condition := Points.between _ _ expression_points

theorem statementOf_points (h : Points text stmt) : Points text (statementOf stmt) := by
  have hblock : Points text (block stmt) :=
    Points.here.bind fun _ => (Points.between _ _ (.many h)).bind fun _ => .pure
  have hif : Points text (ifStmt stmt) :=
    Points.here.bind fun _ => (Points.keyword _).bind fun _ => condition_points.bind fun _ =>
      h.bind fun _ => (Points.optional ((Points.keyword _).bind fun _ => h)).bind fun _ => .pure
  have hwhile : Points text (whileStmt stmt) :=
    Points.here.bind fun _ => (Points.keyword _).bind fun _ => condition_points.bind fun _ =>
      h.bind fun _ => .pure
  have hreturn : Points text returnStmt :=
    Points.here.bind fun _ => (Points.keyword _).bind fun _ =>
      (Points.optional expression_points).bind fun _ => (Points.punct _).bind fun _ => .pure
  have hassign : Points text assignStmt :=
    Points.here.bind fun _ => Points.ident.bind fun _ => (Points.punct _).bind fun _ =>
      expression_points.bind fun _ => (Points.punct _).bind fun _ => .pure
  have harrayAssign : Points text arrayAssignStmt :=
    Points.here.bind fun _ => Points.ident.bind fun _ =>
      (Points.between _ _ expression_points).bind fun _ => (Points.punct _).bind fun _ =>
        expression_points.bind fun _ => (Points.punct _).bind fun _ => .pure
  have hexpr : Points text exprStmt :=
    Points.here.bind fun _ => expression_points.bind fun _ => (Points.punct _).bind fun _ => .pure
  refine .choice ?_
  simp only [List.forall_mem_cons]
  exact ⟨hblock, hif, hwhile, hreturn, hassign, harrayAssign, hexpr, nofun⟩

theorem statement_points : Points text statement := .tie fun _ => statementOf_points

/-! ## Declarations -/

theorem writtenType_points : Points text writtenType := by
  have hclass : Points text classType := Points.ident.bind fun _ => .pure
  have harray : Points text arraySuffix :=
    (Points.punct _).bind fun _ => (Points.punct _).bind fun _ => .pure
  have hvarargs : Points text varargsSuffix := (Points.punct _).bind fun _ => .pure
  exact (Points.orElse .satisfy hclass).bind fun _ =>
    (Points.optional (.orElse harray hvarargs)).bind fun _ => .pure

theorem varDecl_points : Points text varDecl :=
  Points.here.bind fun _ => writtenType_points.bind fun _ => Points.ident.bind fun _ =>
    (Points.punct _).bind fun _ => .pure

theorem methodDecl_points : Points text methodDecl := by
  have hparam : Points text param :=
    Points.here.bind fun _ => writtenType_points.bind fun _ => Points.ident.bind fun _ => .pure
  have hbody : Points text (many (varDecl <|> statement)) :=
    .many (.orElse varDecl_points statement_points)
  refine Points.here.bind fun _ => (Points.optional (Points.keyword _)).bind fun _ =>
    (Points.optional (Points.keyword _)).bind fun _ => writtenType_points.bind fun _ =>
      Points.ident.bind fun _ => ?_
  exact (Points.between _ _ (.commaSeparated hparam)).bind fun _ =>
    (Points.between _ _ hbody).bind fun _ => .pure

theorem importDecl_points : Points text importDecl :=
  Points.here.bind fun _ => (Points.keyword _).bind fun _ =>
    (Points.sepBy1 .ident (Points.punct _)).bind fun _ => (Points.punct _).bind fun _ => .pure

theorem classDecl_points : Points text classDecl := by
  have hmembers : Points text (many (varDecl <|> methodDecl)) :=
    .many (.orElse varDecl_points methodDecl_points)
  exact Points.here.bind fun _ => (Points.keyword _).bind fun _ => Points.ident.bind fun _ =>
    (Points.optional ((Points.keyword _).bind fun _ => .ident)).bind fun _ =>
      (Points.between _ _ hmembers).bind fun _ => .pure

/-- **What is wrong with a program has a span in the text.** -/
theorem program_points : Points text program :=
  Points.here.bind fun _ => (Points.many (.orElse importDecl_points classDecl_points)).bind
    fun _ => Points.endOfInput.bind fun _ => .pure

end Grammar

end MiniJava
