import MiniJava.Proofs.Grammar.Completeness.Expression

/-!
# Every statement is read back

A choice of the grammar never takes a wrong turn on a statement: the forms are told apart by their
first tokens, and an assignment from an expression by what stands behind the name at its front
(`AfterName`). A statement that leaves an `if` open must not stand in front of an `else`.

Main result: `statement_accepts`.
-/

namespace MiniJava

open MiniJava.Parser RawNode
open Token (enclosed BeginsWith)

namespace Grammar

variable {n : Nat} {us : List Token}

/-! ## First tokens -/

theorem statement_starts : statement.Starts Token.startsStmt := by
  refine .of_reads statement_reads ?_
  rintro _ s ⟨rfl, hs⟩
  exact hs.beginsWith

/-- Below `n` tokens the parser reads every statement, in front of no `else` that could belong to it;
what it reads starts as statements do. -/
structure ReadsStmts (n : Nat) (stmt : Parser RawNode) : Prop where
  accepts : ∀ s us, s.IsStmt → (s.endsOpen = true → us.head? ≠ some (.keyword .elseKw)) →
    stmt.Accepts n s.tokens us (·.unplaced = s)
  starts : stmt.Starts Token.startsStmt

theorem condition_accepts {c : RawNode} (hc : c.IsExpr) (us : List Token) :
    condition.Accepts n (enclosed .openParen .closeParen c.tokens) us (·.unplaced = c) :=
  .between (expression_accepts n hc (follows_cons (by decide) us))

/-- The last part of most statements: an expression up to the semicolon. -/
theorem expression_accepts_semicolon {e : RawNode} (he : e.IsExpr) (us : List Token) :
    expression.Accepts n e.tokens ([.punct .semicolon] ++ us) (·.unplaced = e) :=
  expression_accepts n he (follows_cons (by decide) us)

section

variable {stmt : Parser RawNode}

theorem block_starts : (block stmt).Starts (· == .punct .openBrace) :=
  .here_bind fun _ => .bind (.between rfl) _

theorem ifStmt_starts : (ifStmt stmt).Starts (· == .keyword .ifKw) :=
  .here_bind fun _ => .bind (.token rfl) _

theorem whileStmt_starts : (whileStmt stmt).Starts (· == .keyword .whileKw) :=
  .here_bind fun _ => .bind (.token rfl) _

theorem returnStmt_starts : returnStmt.Starts (· == .keyword .returnKw) :=
  .here_bind fun _ => .bind (.token rfl) _

theorem ident_starts : ident.Starts Token.isIdent := by
  refine .satisfy fun t name h => ?_
  cases t with
  | ident => rfl
  | _ => cases h

theorem assignStmt_starts : assignStmt.Starts Token.isIdent :=
  .here_bind fun _ => .bind ident_starts _

theorem arrayAssignStmt_starts : arrayAssignStmt.Starts Token.isIdent :=
  .here_bind fun _ => .bind ident_starts _

theorem assignStmt_refuses (name : String) (h : ∀ t ∈ us.head?, t ≠ .punct .assign) :
    assignStmt.Refuses (.ident name :: us) :=
  .here_bind fun _ => .ident_bind (.bind (.token h) _)

theorem arrayAssignStmt_refuses (name : String) (h : ∀ t ∈ us.head?, t ≠ .punct .openBracket) :
    arrayAssignStmt.Refuses (.ident name :: us) := by
  have hbetween : (between .openBracket .closeBracket expression).Starts
      (· == .punct .openBracket) := .between rfl
  refine .here_bind fun _ => .ident_bind (.bind (hbetween.refuses fun t ht => ?_) _)
  exact beq_eq_false_iff_ne.mpr (h t ht)

/-- An element of an array is no target where no `=` stands behind it. -/
theorem arrayAssignStmt_refuses_index (name : String) {i : RawNode} (hi : i.IsExpr)
    (h : ∀ t ∈ us.head?, t ≠ .punct .assign) :
    arrayAssignStmt.Refuses
      (.ident name :: (enclosed .openBracket .closeBracket i.tokens ++ us)) := by
  refine .here_bind fun _ => .ident_bind (Accepts.refuses_bind (Q := fun _ => True) ?_ ?_)
  · intro n
    have hindex : expression.Accepts n i.tokens (.punct .closeBracket :: us) (·.unplaced = i) :=
      expression_accepts n hi (follows_cons (by decide) us)
    exact (Accepts.between hindex).mono fun _ _ => trivial
  · exact fun _ _ => .bind (.token h) _

/-- An expression by itself is no assignment. -/
theorem assignments_refuse {e : RawNode} (he : e.IsExpr) (us : List Token) :
    assignStmt.Refuses (e.tokens ++ .punct .semicolon :: us) ∧
      arrayAssignStmt.Refuses (e.tokens ++ .punct .semicolon :: us) := by
  have hassign {ts : List Token} (h : AfterName ts) :
      ∀ t ∈ (ts ++ .punct .semicolon :: us).head?, t ≠ .punct .assign := by
    rintro t ht rfl
    rcases h.grip_pos ht with h | h <;> cases h
  rcases he.name_or_beginsWith with ⟨name, ts, hts, hafter⟩ | hother
  · rw [hts, List.cons_append]
    refine ⟨assignStmt_refuses name (hassign hafter), ?_⟩
    cases hafter with
    | nil => exact arrayAssignStmt_refuses name (by rintro _ ⟨⟩; decide)
    | operator op => exact arrayAssignStmt_refuses name (by rintro _ ⟨⟩; cases op <;> decide)
    | dot => exact arrayAssignStmt_refuses name (by rintro _ ⟨⟩; decide)
    | index hi hmore =>
      rw [List.append_assoc]
      exact arrayAssignStmt_refuses_index name hi (hassign hmore)
  · have hident (t : Token) (ht : t ∈ (e.tokens ++ .punct .semicolon :: us).head?) :
        t.isIdent = false := by
      have := (hother.append (.punct .semicolon :: us)).of_mem_head? ht
      simp only [Bool.and_eq_true, Bool.not_eq_true'] at this
      exact this.2
    exact ⟨assignStmt_starts.refuses hident, arrayAssignStmt_starts.refuses hident⟩

theorem block_accepts (h : ReadsStmts n stmt) {ss : List RawNode} (hss : ∀ s ∈ ss, s.IsStmt) :
    (block stmt).Accepts (n + 1) (plain .block [] ss).tokens us
      (·.unplaced = plain .block [] ss) := by
  have hmany : (many stmt).Accepts n (ss.flatMap tokens) (.punct .closeBrace :: us)
      (fun as => as.map unplaced = ss) := by
    refine .many (G := fun vs => vs.head? ≠ some (.keyword .elseKw)) ?_ ?_ ?_ ?_ ?_
    · exact fun s hs vs hvs => h.accepts s vs (hss s hs) fun _ => hvs
    · exact fun s hs => (hss s hs).beginsWith.ne_nil
    · intro s hs vs helse
      cases ((hss s hs).beginsWith.append vs).of_mem_head? helse
    · rw [List.head?_cons]
      decide
    · exact h.starts.refuses_cons rfl us
  rw [tokens_block]
  refine .here_bind fun p => .bind_last (.between_succ hmany) ?_
  rintro ss rfl
  exact .pure (unplaced_place_eq (l := .block) rfl rfl)

theorem elsePart_refuses (h : us.head? ≠ some (.keyword .elseKw)) : (elsePart stmt).Refuses us := by
  refine .bind (.token ?_) _
  rintro t ht rfl
  exact h ht

theorem ifThen_accepts (h : ReadsStmts n stmt) {c t : RawNode} (hc : c.IsExpr) (ht : t.IsStmt)
    (hus : us.head? ≠ some (.keyword .elseKw)) :
    (ifStmt stmt).Accepts (n + 1) (plain .ifElse [] [c, t]).tokens us
      (·.unplaced = plain .ifElse [] [c, t]) := by
  have hnone : (optional (elsePart stmt)).Accepts n [] us (· = none) :=
    .optional_none (elsePart_refuses hus) rfl
  refine .here_bind fun p => .token_bind_succ (.bind (condition_accepts hc _) ?_)
  rintro c rfl
  refine .bind_last (h.accepts t us ht fun _ => hus) ?_
  rintro t rfl
  refine .bind_last hnone ?_
  rintro _ rfl
  exact .pure (unplaced_place_eq (l := .ifElse) rfl rfl)

theorem ifElse_accepts (h : ReadsStmts n stmt) {c t e : RawNode} (hc : c.IsExpr) (ht : t.IsStmt)
    (hclosed : t.endsOpen = false) (he : e.IsStmt)
    (hus : e.endsOpen = true → us.head? ≠ some (.keyword .elseKw)) :
    (ifStmt stmt).Accepts (n + 1) (plain .ifElse [] [c, t, e]).tokens us
      (·.unplaced = plain .ifElse [] [c, t, e]) := by
  have hthen := h.accepts t (.keyword .elseKw :: e.tokens ++ us) ht (by simp [hclosed])
  have hsome : (optional (elsePart stmt)).Accepts n (.keyword .elseKw :: e.tokens) us
      (fun e? => ∃ e', e? = some e' ∧ e'.unplaced = e) := by
    refine .optional_some (.token_bind ((h.accepts e us he hus).mono ?_))
    exact fun e' he' => ⟨e', rfl, he'⟩
  refine .here_bind fun p => .token_bind_succ (.bind (condition_accepts hc _) ?_)
  rintro c rfl
  refine .bind hthen ?_
  rintro t rfl
  refine .bind_last hsome ?_
  rintro _ ⟨e, rfl, rfl⟩
  exact .pure (unplaced_place_eq (l := .ifElse) rfl rfl)

theorem whileStmt_accepts (h : ReadsStmts n stmt) {c b : RawNode} (hc : c.IsExpr) (hb : b.IsStmt)
    (hus : b.endsOpen = true → us.head? ≠ some (.keyword .elseKw)) :
    (whileStmt stmt).Accepts (n + 1) (plain .whileLoop [] [c, b]).tokens us
      (·.unplaced = plain .whileLoop [] [c, b]) := by
  refine .here_bind fun p => .token_bind_succ (.bind (condition_accepts hc _) ?_)
  rintro c rfl
  refine .bind_last (h.accepts b us hb hus) ?_
  rintro b rfl
  exact .pure (unplaced_place_eq (l := .whileLoop) rfl rfl)

theorem returnStmt_accepts {value : Option RawNode} (hvalue : ∀ e ∈ value, e.IsExpr) :
    returnStmt.Accepts n (plain .returning [] value.toList).tokens us
      (·.unplaced = plain .returning [] value.toList) := by
  have hoptional : (optional expression).Accepts n (value.toList.flatMap tokens)
      ([.punct .semicolon] ++ us) (fun e? => e?.map unplaced = value) := by
    cases value with
    | none => exact .optional_none (expression_starts.refuses_cons rfl us) rfl
    | some e =>
      rw [Option.toList_some, List.flatMap_singleton]
      refine .optional_some ((expression_accepts_semicolon (hvalue e rfl) us).mono ?_)
      rintro e rfl
      rfl
  rw [tokens_returning]
  refine .here_bind fun p => .token_bind (.bind hoptional ?_)
  rintro e? rfl
  refine .token_bind (.pure (unplaced_place_eq (l := .returning) rfl ?_))
  cases e? <;> rfl

theorem assignStmt_accepts {e : RawNode} (target : String) (he : e.IsExpr) :
    assignStmt.Accepts n (plain .assign [("value", target)] [e]).tokens us
      (·.unplaced = plain .assign [("value", target)] [e]) := by
  refine .here_bind fun p => .ident_bind (.token_bind
    (.bind (expression_accepts_semicolon he us) ?_))
  rintro e rfl
  exact .token_bind (.pure (unplaced_place_eq (l := .assign) rfl rfl))

theorem arrayAssignStmt_accepts {i e : RawNode} (target : String) (hi : i.IsExpr) (he : e.IsExpr) :
    arrayAssignStmt.Accepts n (plain .arrayAssign [("value", target)] [i, e]).tokens us
      (·.unplaced = plain .arrayAssign [("value", target)] [i, e]) := by
  refine .here_bind fun p => .ident_bind (.bind
    (.between (expression_accepts n hi (follows_cons (by decide) _))) ?_)
  rintro i rfl
  refine .token_bind (.bind (expression_accepts_semicolon he us) ?_)
  rintro e rfl
  exact .token_bind (.pure (unplaced_place_eq (l := .arrayAssign) rfl rfl))

theorem exprStmt_accepts {e : RawNode} (he : e.IsExpr) :
    exprStmt.Accepts n (plain .exprStmt [] [e]).tokens us (·.unplaced = plain .exprStmt [] [e]) := by
  refine .here_bind fun p => .bind (expression_accepts_semicolon he us) ?_
  rintro e rfl
  exact .token_bind (.pure (unplaced_place_eq (l := .exprStmt) rfl rfl))

/-- The statements that begin with words or with a brace stand first, so that no expression is taken
for one. -/
theorem statementOf_accepts_of {ts : List Token} {Q : RawNode → Prop}
    (hbegins : BeginsWith Token.startsExpr (ts ++ us))
    (h : (choice assignStmt [arrayAssignStmt, exprStmt]).Accepts n ts us Q) :
    (statementOf stmt).Accepts n ts us Q := by
  have hrefuses {p : Parser RawNode} {t : Token} (hp : p.Starts (· == t))
      (ht : t.startsExpr = false) : p.Refuses (ts ++ us) := by
    refine hp.refuses fun t' ht' => beq_eq_false_iff_ne.mpr ?_
    rintro rfl
    have := hbegins.of_mem_head? ht'
    simp [ht] at this
  refine .choice_next (hrefuses block_starts rfl) ?_
  refine .choice_next (hrefuses ifStmt_starts rfl) ?_
  refine .choice_next (hrefuses whileStmt_starts rfl) ?_
  exact .choice_next (hrefuses returnStmt_starts rfl) h

theorem statementOf_accepts (h : ReadsStmts n stmt) {s : RawNode} (hs : s.IsStmt)
    (hus : s.endsOpen = true → us.head? ≠ some (.keyword .elseKw)) :
    (statementOf stmt).Accepts (n + 1) s.tokens us (·.unplaced = s) := by
  cases hs with
  | block hss => exact .choice_head (block_accepts h hss)
  | ifThen hc ht =>
    refine .choice_next (block_starts.refuses_cons rfl _) (.choice_head ?_)
    exact ifThen_accepts h hc ht (hus rfl)
  | ifElse hc ht hclosed he =>
    refine .choice_next (block_starts.refuses_cons rfl _) (.choice_head ?_)
    exact ifElse_accepts h hc ht hclosed he hus
  | whileLoop hc hb =>
    refine .choice_next (block_starts.refuses_cons rfl _) ?_
    refine .choice_next (ifStmt_starts.refuses_cons rfl _) (.choice_head ?_)
    exact whileStmt_accepts h hc hb hus
  | returning value hvalue =>
    have haccepts : returnStmt.Accepts (n + 1) _ us _ := returnStmt_accepts hvalue
    rw [tokens_returning] at haccepts ⊢
    refine .choice_next (block_starts.refuses_cons rfl _) ?_
    refine .choice_next (ifStmt_starts.refuses_cons rfl _) ?_
    exact .choice_next (whileStmt_starts.refuses_cons rfl _) (.choice_head haccepts)
  | assign target he =>
    refine statementOf_accepts_of ⟨_, _, rfl, rfl⟩ (.choice_head ?_)
    exact assignStmt_accepts target he
  | arrayAssign target hi he =>
    refine statementOf_accepts_of ⟨_, _, rfl, rfl⟩ ?_
    refine .choice_next (assignStmt_refuses target (by rintro _ ⟨⟩; decide)) (.choice_head ?_)
    exact arrayAssignStmt_accepts target hi he
  | exprStmt he =>
    obtain ⟨hassign, harrayAssign⟩ := assignments_refuse he us
    have haccepts : exprStmt.Accepts (n + 1) _ us _ := exprStmt_accepts he
    rw [tokens_exprStmt] at haccepts ⊢
    refine statementOf_accepts_of ((he.beginsWith.append _).append us) ?_
    refine .choice_next ?_ (.choice_next ?_ (.choice_head haccepts))
    · rwa [List.append_assoc, List.singleton_append]
    · rwa [List.append_assoc, List.singleton_append]

end

/-- **Every statement is read back** in front of no `else` that could belong to it. -/
theorem statement_accepts (n : Nat) {s : RawNode} (hs : s.IsStmt) {us : List Token}
    (hus : s.endsOpen = true → us.head? ≠ some (.keyword .elseKw)) :
    statement.Accepts n s.tokens us (·.unplaced = s) := by
  refine Accepts.tie (C := fun ts us Q => ∃ s : RawNode, s.IsStmt ∧
    (s.endsOpen = true → us.head? ≠ some (.keyword .elseKw)) ∧ ts = s.tokens ∧
      Q = (·.unplaced = s)) ?_ n ⟨s, hs, hus, rfl, rfl⟩
  rintro n stmt hrun haccepts _ us _ ⟨s, hs, hus, rfl, rfl⟩
  have hreads : ReadsStmts n stmt :=
    ⟨fun s us hs hus => haccepts _ _ _ ⟨s, hs, hus, rfl, rfl⟩,
      fun s a r ha => statement_starts s a r (hrun s a r ha)⟩
  exact statementOf_accepts hreads hs hus

end Grammar

end MiniJava
