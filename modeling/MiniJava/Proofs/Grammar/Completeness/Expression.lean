import MiniJava.Proofs.Grammar.Accepts
import MiniJava.Proofs.Grammar.Following
import MiniJava.Proofs.Grammar.Soundness

/-!
# Every expression is read back

A parser is run on the tokens of an expression in grammar shape, with something behind that does not
go on with it, and yields the expression. The proof follows the levels of the grammar from atoms up.
The references inside an atom or a selector stand behind a token, so they may be assumed to read
every expression in front of fewer tokens (`ReadsExprs`).

Main result: `expression_accepts`.
-/

namespace MiniJava

open MiniJava.Parser RawNode
open Token (enclosed commaSeparated BeginsWith)

/-- A node of the grammar is read back without its position. -/
theorem unplaced_place_eq {l : Label} {offset? : Option String} {as : List (String × String)}
    {ns ms : List RawNode} (has : as.all (isLasting ·.1) = true) (hns : ns.map unplaced = ms) :
    (place l.name offset? as ns).unplaced = plain l as ms := by
  rw [unplaced_place _ _ as (List.all_eq_true.mp has) ns, hns, plain]

namespace Grammar

/-! ## Atoms -/

theorem expression_starts : expression.Starts Token.startsExpr := by
  refine .of_reads expression_reads ?_
  rintro _ e ⟨rfl, he⟩
  exact he.beginsWith

/-- Below `n` tokens the parser reads every expression in front of what does not go on with it; what
it reads starts as expressions do. -/
structure ReadsExprs (n : Nat) (expr : Parser RawNode) : Prop where
  accepts : ∀ e us, e.IsExpr → Follows 1 us → expr.Accepts n e.tokens us (·.unplaced = e)
  starts : expr.Starts Token.startsExpr

section

variable {n : Nat} {expr : Parser RawNode} {us : List Token}

theorem integerLiteral_starts : integerLiteral.Starts (· matches .integer _) := by
  refine .here_bind fun _ => .bind (.satisfy fun t a h => ?_) _
  cases t with
  | integer => rfl
  | _ => cases h

theorem booleanLiteral_starts :
    booleanLiteral.Starts (· ∈ [.keyword .trueKw, .keyword .falseKw]) := by
  refine .here_bind fun _ => .bind (.satisfy fun t a h => ?_) _
  split at h <;> first | rfl | cases h

theorem thisExpr_starts : thisExpr.Starts (· == .keyword .thisKw) :=
  .here_bind fun _ => (Starts.token rfl).bind _

theorem newArray_starts : (newArray expr).Starts (· == .keyword .newKw) :=
  .here_bind fun _ => (Starts.token rfl).bind _

theorem newObject_starts : newObject.Starts (· == .keyword .newKw) :=
  .here_bind fun _ => (Starts.token rfl).bind _

theorem arrayLiteral_starts : (arrayLiteral expr).Starts (· == .punct .openBracket) :=
  .here_bind fun _ => (Starts.between rfl).bind _

theorem parenthesis_starts : (parenthesis expr).Starts (· == .punct .openParen) :=
  .here_bind fun _ => (Starts.between rfl).bind _

/-- The atoms of one token other than a name stand first, so that no other token is taken for one. -/
theorem atom_accepts_of {t : Token} {ts : List Token} {Q : RawNode → Prop}
    (ht : t.isConstant = false)
    (h : (choice (newArray expr) [newObject, arrayLiteral expr, parenthesis expr, variableRef]).Accepts
      n (t :: ts) us Q) : (atom expr).Accepts n (t :: ts) us Q := by
  have hinteger : integerLiteral.Starts Token.isConstant := by
    refine integerLiteral_starts.mono fun t ht => ?_
    cases t with
    | integer => rfl
    | _ => cases ht
  have hboolean : booleanLiteral.Starts Token.isConstant := by
    refine booleanLiteral_starts.mono fun t ht => ?_
    simp only [List.mem_cons, List.not_mem_nil, or_false, decide_eq_true_eq] at ht
    rcases ht with rfl | rfl <;> rfl
  have hthis : thisExpr.Starts Token.isConstant := by
    refine thisExpr_starts.mono fun t ht => ?_
    rw [beq_iff_eq.mp ht]
    rfl
  refine .choice_next (hinteger.refuses_cons ht _) ?_
  refine .choice_next (hboolean.refuses_cons ht _) ?_
  exact .choice_next (hthis.refuses_cons ht _) h

/-- The elements of a list or the arguments of a call, up to the closing sign. -/
theorem elements_accepts (h : ReadsExprs n expr) {es : List RawNode} (hes : ∀ e ∈ es, e.IsExpr)
    {close : Punct} (hclose : close = .closeBracket ∨ close = .closeParen) (us : List Token) :
    (sepBy expr (punct .comma)).Accepts n (commaSeparated (es.map tokens)) (.punct close :: us)
      (fun as => as.map unplaced = es) := by
  have hstop : Token.startsExpr (.punct close) = false ∧ (Token.punct close).grip = 0 ∧
      Token.punct close ≠ .punct .comma := by
    rcases hclose with rfl | rfl <;> decide
  refine .sepBy (fun e he vs hvs => h.accepts e vs (hes e he) hvs) ?_ ?_ ?_ ?_
  · exact fun vs => follows_cons (by decide) vs
  · exact follows_cons (by omega) us
  · rintro _ ⟨⟩
    exact hstop.2.2
  · exact h.starts.refuses_cons hstop.1 us

theorem newArray_accepts (h : ReadsExprs n expr) {size : RawNode} {element : String}
    (helement : element = "int" ∨ element = "boolean") (hsize : size.IsExpr) :
    (newArray expr).Accepts (n + 1) (plain .newArray [("value", element)] [size]).tokens us
      (·.unplaced = plain .newArray [("value", element)] [size]) := by
  have hbetween : (between .openBracket .closeBracket expr).Accepts n
      (enclosed .openBracket .closeBracket size.tokens) us (·.unplaced = size) :=
    .between (h.accepts size _ hsize (follows_cons (by decide) us))
  refine .here_bind fun p => .token_bind_succ (.satisfy_bind (a := element) ?_ ?_)
  · rcases helement with rfl | rfl <;> rfl
  · refine .bind_last hbetween ?_
    rintro size rfl
    exact .pure (unplaced_place_eq (l := .newArray) rfl rfl)

theorem newArray_refuses (name : String) (us : List Token) :
    (newArray expr).Refuses (.keyword .newKw :: .ident name :: us) :=
  .here_bind fun _ => .token_bind (.bind (.satisfy rfl us) _)

theorem atom_accepts (h : ReadsExprs n expr) {e : RawNode} (he : e.IsOperand 9)
    (us : List Token) : (atom expr).Accepts (n + 1) e.tokens us (·.unplaced = e) := by
  obtain ⟨he, hstrong⟩ := he
  -- the alternatives in front of the one that fits start with other tokens
  cases he with
  | intLit digits =>
    refine .choice_head (.here_bind fun p => .satisfy_bind rfl (.pure ?_))
    exact unplaced_place_eq (l := .intLit) rfl rfl
  | boolLit b =>
    rw [tokens_boolLit]
    refine .choice_next (integerLiteral_starts.refuses_cons rfl _) (.choice_head ?_)
    refine .here_bind fun p => .satisfy_bind (a := flagText b) ?_ (.pure ?_)
    · cases b <;> rfl
    · exact unplaced_place_eq (l := .boolLit) rfl rfl
  | this =>
    refine .choice_next (integerLiteral_starts.refuses_cons rfl _) ?_
    refine .choice_next (booleanLiteral_starts.refuses_cons rfl _) (.choice_head ?_)
    exact .here_bind fun p => .token_bind (.pure (unplaced_place_eq (l := .this) rfl rfl))
  | newArray helement hsize =>
    refine atom_accepts_of rfl (.choice_head ?_)
    exact newArray_accepts h helement hsize
  | newObject name =>
    refine atom_accepts_of rfl ?_
    refine .choice_next (newArray_refuses name _) (.choice_head ?_)
    refine .here_bind fun p => .token_bind (.ident_bind (.token_bind (.token_bind (.pure ?_))))
    exact unplaced_place_eq (l := .newObject) rfl rfl
  | arrayLit hes =>
    rw [tokens_arrayLit]
    refine atom_accepts_of rfl ?_
    refine .choice_next (newArray_starts.refuses_cons rfl _) ?_
    refine .choice_next (newObject_starts.refuses_cons rfl _) (.choice_head ?_)
    refine .here_bind fun p => .bind_last (.between_succ (elements_accepts h hes (.inl rfl) us)) ?_
    exact fun as has => .pure (unplaced_place_eq (l := .arrayLit) rfl has)
  | paren hinner =>
    refine atom_accepts_of rfl ?_
    refine .choice_next (newArray_starts.refuses_cons rfl _) ?_
    refine .choice_next (newObject_starts.refuses_cons rfl _) ?_
    refine .choice_next (arrayLiteral_starts.refuses_cons rfl _) (.choice_head ?_)
    have haccepts := h.accepts _ (.punct .closeParen :: us) hinner (follows_cons (by decide) us)
    refine .here_bind fun p => .bind_last (.between_succ haccepts) ?_
    rintro inner rfl
    exact .pure (unplaced_place_eq (l := .paren) rfl rfl)
  | varRef name =>
    refine atom_accepts_of rfl ?_
    refine .choice_next (newArray_starts.refuses_cons rfl _) ?_
    refine .choice_next (newObject_starts.refuses_cons rfl _) ?_
    refine .choice_next (arrayLiteral_starts.refuses_cons rfl _) ?_
    refine .choice_next (parenthesis_starts.refuses_cons rfl _) (.choice_head ?_)
    exact .here_bind fun p => .ident_bind (.pure (unplaced_place_eq (l := .varRef) rfl rfl))
  | arrayAccess | arrayLength | call => exact absurd hstrong (by decide : ¬ 9 ≤ 8)
  | unary => exact absurd hstrong (by decide : ¬ 9 ≤ 7)
  | binary op =>
    rw [strength_binary] at hstrong
    have := op.strength_le
    omega

/-! ## Selections -/

theorem subscript_starts : (subscript expr).Starts (· == .punct .openBracket) :=
  (Starts.between rfl).bind _

/-- Arguments in parentheses. -/
abbrev argumentList (expr : Parser RawNode) : Parser (List RawNode) :=
  between .openParen .closeParen (sepBy expr (punct .comma))

theorem member_starts : (member expr).Starts (· == .punct .dot) := by
  intro s a r hrun
  have hdot : (do
      punct .dot
      let name ← ident
      let arguments ← optional (argumentList expr)
      return (name, arguments) : Parser (String × Option (List RawNode))).Starts
        (· == .punct .dot) := (Starts.token rfl).bind _
  rw [member, run_tryMap, Option.bind_eq_some_iff] at hrun
  obtain ⟨⟨b, r'⟩, hb, -⟩ := hrun
  exact hdot s b r' hb

theorem argumentList_refuses (hus : ∀ t ∈ us.head?, t ≠ .punct .openParen) :
    (argumentList expr).Refuses us := by
  have hstarts : (argumentList expr).Starts (· == .punct .openParen) := .between rfl
  exact hstarts.refuses fun t ht => beq_eq_false_iff_ne.mpr (hus t ht)

theorem selector_accepts (h : ReadsExprs n expr) {s : Selector} (hs : s.IsShaped)
    (hus : ∀ t ∈ us.head?, t ≠ .punct .openParen) :
    (subscript expr <|> member expr).Accepts (n + 1) s.tokens us (·.unplaced = s) := by
  cases hs with
  | @index e he =>
    have haccepts := h.accepts e (.punct .closeBracket :: us) he (follows_cons (by decide) us)
    refine .orElse_left (.bind_last (.between_succ haccepts) ?_)
    rintro e rfl
    exact .pure rfl
  | length =>
    have hnone : (optional (argumentList expr)).Accepts n [] us (· = none) :=
      .optional_none (argumentList_refuses hus) rfl
    refine .orElse_right (subscript_starts.refuses_cons rfl _) (.tryMap ?_)
    refine .token_bind_succ (.ident_bind (.bind_last hnone ?_))
    rintro _ rfl
    exact .pure ⟨.length, rfl, rfl⟩
  | @call es method hes =>
    have hsome : (optional (argumentList expr)).Accepts n
        (enclosed .openParen .closeParen (commaSeparated (es.map tokens))) us
        (fun as? => ∃ as, as? = some as ∧ as.map unplaced = es) := by
      refine .optional_some ((Accepts.between (elements_accepts h hes (.inr rfl) us)).mono ?_)
      exact fun as has => ⟨as, rfl, has⟩
    refine .orElse_right (subscript_starts.refuses_cons rfl _) (.tryMap ?_)
    refine .token_bind_succ (.ident_bind (.bind_last hsome ?_))
    rintro _ ⟨as, rfl, rfl⟩
    exact .pure ⟨.call method as, rfl, rfl⟩

theorem Selector.beginsWith (s : Selector) :
    BeginsWith (· ∈ [.punct .openBracket, .punct .dot]) s.tokens := by
  cases s <;> exact ⟨_, _, rfl, rfl⟩

theorem selection_accepts (h : ReadsExprs n expr) {e : RawNode} (he : e.IsOperand 8)
    (hus : Follows 8 us) : (selection expr).Accepts (n + 1) e.tokens us (·.unplaced = e) := by
  obtain ⟨operand, ss, hoperand, hss, rfl⟩ := exists_eq_selected he.1 he.2
  have hstop : (subscript expr <|> member expr).Refuses us := by
    have hstarts : (subscript expr <|> member expr).Starts (8 ≤ ·.grip) :=
      .orElse (subscript_starts.mono fun t ht => by simp_all [Token.grip])
        (member_starts.mono fun t ht => by simp_all [Token.grip])
    exact hstarts.refuses fun t ht => decide_eq_false (Nat.not_le_of_lt (hus t ht))
  have hselectors : (many (subscript expr <|> member expr)).Accepts (n + 1)
      (ss.flatMap Selector.tokens) us (fun as => as.map Selector.unplaced = ss) := by
    refine .many (fun s hs vs hvs => selector_accepts h (hss s hs) hvs) ?_ ?_ ?_ hstop
    · exact fun s _ => s.beginsWith.ne_nil
    · rintro s _ vs t ht rfl
      cases (s.beginsWith.append vs).of_mem_head? ht
    · rintro t ht rfl
      exact absurd (hus _ ht) (by decide)
  rw [tokens_selected]
  refine .bind (atom_accepts h hoperand _) ?_
  rintro operand rfl
  refine .bind_last hselectors ?_
  rintro ss rfl
  exact .pure (unplaced_foldl_apply operand ss)

/-! ## Operators -/

theorem negation_accepts (h : ReadsExprs n expr) {e : RawNode} (he : e.IsOperand 7)
    (hus : Follows 8 us) : (negation expr).Accepts (n + 1) e.tokens us (·.unplaced = e) := by
  obtain ⟨count, operand, hoperand, rfl⟩ := exists_eq_negated he.1 he.2
  have hbangs : (many (do let start ← here; punct .bang; return start)).Accepts (n + 1)
      ((List.replicate count ()).flatMap fun _ => [.punct .bang]) (operand.tokens ++ us)
      (fun ps => ps.map (fun _ => ()) = List.replicate count ()) := by
    refine .many (G := fun _ => True) ?_ (by simp) (fun _ _ _ => trivial) trivial ?_
    · exact fun _ _ _ _ => .here_bind fun p => .token_bind (.pure rfl)
    · refine .here_bind fun p => .bind (.token ?_) _
      rintro t ht rfl
      cases (hoperand.beginsWith.append us).of_mem_head? ht
  rw [tokens_negated]
  have hrow : List.replicate count (Token.punct .bang) =
      (List.replicate count ()).flatMap fun _ => [.punct .bang] := by
    rw [← List.map_eq_flatMap, List.map_replicate]
  rw [hrow]
  refine .bind hbangs fun starts hstarts => ?_
  refine .bind_last (selection_accepts h hoperand hus) ?_
  rintro operand rfl
  have hcount : starts.length = count := by
    have := congrArg List.length hstarts
    simpa using this
  refine .pure ?_
  rw [unplaced_foldr_unary, hcount]

/-- The parser reads the operators of strength `k`. -/
structure ReadsOperators (k : Nat) (op : Parser String) : Prop where
  accepts : ∀ o n us, IsOperator k o → op.Accepts n (operatorTokens o) us (· = o)
  starts : op.Starts (·.grip == k)

theorem leftGrouped_accepts {operand : Parser RawNode} {op : Parser String} {k : Nat} (hk : k ≤ 6)
    (hop : ReadsOperators k op)
    (h : ∀ e us, e.IsOperand (k + 1) → Follows (k + 1) us →
      operand.Accepts n e.tokens us (·.unplaced = e))
    (e : RawNode) (us : List Token) (he : e.IsOperand k) (hus : Follows k us) :
    (leftGrouped operand op).Accepts n e.tokens us (·.unplaced = e) := by
  obtain ⟨first, rest, hfirst, hrest, rfl⟩ := exists_eq_grouped he.1 he.2 hk
  have hbegins (r : String × RawNode) (hr : r ∈ rest) :
      BeginsWith (·.grip == k) (operatorTokens r.1 ++ r.2.tokens) := by
    obtain ⟨⟨op, hsymbol, hstrength⟩, -⟩ := hrest r hr
    rw [hsymbol, operatorTokens_symbol]
    exact ⟨_, _, rfl, by simp [hstrength]⟩
  have hnext (r : String × RawNode) (hr : r ∈ rest) (vs : List Token) :
      Follows (k + 1) (operatorTokens r.1 ++ r.2.tokens ++ vs) := by
    intro t ht
    have hgrip := ((hbegins r hr).append vs).of_mem_head? ht
    simp only [beq_iff_eq] at hgrip
    omega
  have hmore (r : String × RawNode) (hr : r ∈ rest) (vs : List Token) (hvs : Follows (k + 1) vs) :
      (do let o ← op; let e ← operand; return (o, e)).Accepts n
        (operatorTokens r.1 ++ r.2.tokens) vs (fun m => (m.1, m.2.unplaced) = r) := by
    obtain ⟨o, e⟩ := r
    obtain ⟨ho, he⟩ := hrest _ hr
    refine .bind (hop.accepts o n _ ho) ?_
    rintro _ rfl
    refine .bind_last (h e vs he hvs) ?_
    rintro e rfl
    exact .pure rfl
  have hstop : (do let o ← op; let e ← operand; return (o, e)).Refuses us := by
    refine .bind (hop.starts.refuses fun t ht => ?_) _
    have := hus t ht
    exact beq_eq_false_iff_ne.mpr (by omega)
  have hmany := Accepts.many hmore (fun r hr => (hbegins r hr).ne_nil) hnext
    (hus.mono (Nat.le_succ k)) hstop
  -- Behind the first operand comes an operator of this strength, or what does not go on at all.
  have hfollows : Follows (k + 1) (operationTokens rest ++ us) := by
    cases rest with
    | nil => exact hus.mono (Nat.le_succ k)
    | cons r rest =>
      rw [operationTokens, List.flatMap_cons, List.append_assoc]
      exact hnext r List.mem_cons_self _
  rw [tokens_grouped hrest]
  refine .bind (h first _ hfirst hfollows) ?_
  rintro first rfl
  refine .bind_last hmany ?_
  rintro rest rfl
  exact .pure (unplaced_foldl_binary first rest)

theorem operator_accepts (op : BinaryOp) (n : Nat) (us : List Token) :
    (operator op.punct).Accepts n (operatorTokens op.symbol) us (· = op.symbol) := by
  rw [operatorTokens_symbol]
  exact .token_bind (.pure op.text_punct)

theorem operator_starts (op : BinaryOp) :
    (operator op.punct).Starts (· == .punct op.punct) := by
  refine .bind (.token ?_) _
  exact beq_self_eq_true _

/-- An operator refuses every other. -/
theorem operator_refuses (op : BinaryOp) {op' : BinaryOp} (h : op'.punct ≠ op.punct)
    (us : List Token) :
    (operator op.punct).Refuses (operatorTokens op'.symbol ++ us) := by
  rw [operatorTokens_symbol]
  exact (operator_starts op).refuses_cons (by simpa using h) us

theorem operator_starts_grip (op : BinaryOp) :
    (operator op.punct).Starts (·.grip == op.strength) := by
  refine (operator_starts op).mono fun t ht => ?_
  rw [beq_iff_eq.mp ht, Token.grip_operator]
  exact beq_self_eq_true _

theorem readsOperators_single (op : BinaryOp)
    (h : ∀ op' : BinaryOp, op'.strength = op.strength → op' = op) :
    ReadsOperators op.strength (operator op.punct) where
  accepts := by
    rintro _ n us ⟨op', rfl, hop'⟩
    rw [h op' hop']
    exact operator_accepts op n us
  starts := operator_starts_grip op

theorem readsOperators_pair (op₁ op₂ : BinaryOp) (hsame : op₂.strength = op₁.strength)
    (h : ∀ op : BinaryOp, op.strength = op₁.strength → op = op₁ ∨ op = op₂)
    (hne : op₂.punct ≠ op₁.punct) :
    ReadsOperators op₁.strength (operator op₁.punct <|> operator op₂.punct) where
  accepts := by
    rintro _ n us ⟨op, rfl, hop⟩
    rcases h op hop with rfl | rfl
    · exact .orElse_left (operator_accepts op n us)
    · exact .orElse_right (operator_refuses op₁ hne us) (operator_accepts op n us)
  starts := .orElse (operator_starts_grip op₁) (hsame ▸ operator_starts_grip op₂)

theorem readsOperators_relation :
    ReadsOperators 4 (choice (operator .lessEqual)
      [operator .greaterEqual, operator .less, operator .greater]) where
  accepts := by
    rintro _ n us ⟨op, rfl, hop⟩
    cases op with
    | le => exact .choice_head (operator_accepts .le n us)
    | ge =>
      refine .choice_next (operator_refuses .le (by decide) us) ?_
      exact .choice_head (operator_accepts .ge n us)
    | lt =>
      refine .choice_next (operator_refuses .le (by decide) us) ?_
      refine .choice_next (operator_refuses .ge (by decide) us) ?_
      exact .choice_head (operator_accepts .lt n us)
    | gt =>
      refine .choice_next (operator_refuses .le (by decide) us) ?_
      refine .choice_next (operator_refuses .ge (by decide) us) ?_
      refine .choice_next (operator_refuses .lt (by decide) us) ?_
      exact .choice_head (operator_accepts .gt n us)
    | _ => cases hop
  starts := by
    refine .choice fun q hq => ?_
    simp only [List.mem_cons, List.not_mem_nil, or_false] at hq
    rcases hq with rfl | rfl | rfl | rfl
    · exact operator_starts_grip .le
    · exact operator_starts_grip .ge
    · exact operator_starts_grip .lt
    · exact operator_starts_grip .gt

/-- An expression accepts every tree when the references inside do so below one token less. -/
theorem disjunction_accepts (h : ReadsExprs n expr) (e : RawNode) (us : List Token)
    (he : e.IsOperand 1) (hus : Follows 1 us) :
    (disjunction expr).Accepts (n + 1) e.tokens us (·.unplaced = e) := by
  have hproduct := leftGrouped_accepts (k := 6) (by decide)
    (readsOperators_pair .mul .div rfl (by decide) (by decide))
    fun e us he hus => negation_accepts h he (hus.mono (by decide))
  have hsum := leftGrouped_accepts (k := 5) (by decide)
    (readsOperators_pair .add .sub rfl (by decide) (by decide)) hproduct
  have hrelation := leftGrouped_accepts (k := 4) (by decide) readsOperators_relation hsum
  have hequality := leftGrouped_accepts (k := 3) (by decide)
    (readsOperators_pair .eq .ne rfl (by decide) (by decide)) hrelation
  have hconjunction := leftGrouped_accepts (k := 2) (by decide)
    (readsOperators_single .and (by decide)) hequality
  exact leftGrouped_accepts (k := 1) (by decide)
    (readsOperators_single .or (by decide)) hconjunction e us he hus

end

/-- **Every expression is read back.** -/
theorem expression_accepts (n : Nat) {e : RawNode} (he : e.IsExpr) {us : List Token}
    (hus : Follows 1 us) : expression.Accepts n e.tokens us (·.unplaced = e) := by
  refine Accepts.tie (C := fun ts us Q => ∃ e : RawNode, e.IsExpr ∧ Follows 1 us ∧
    ts = e.tokens ∧ Q = (·.unplaced = e)) ?_ n ⟨e, he, hus, rfl, rfl⟩
  rintro n expr hrun haccepts _ us _ ⟨e, he, hus, rfl, rfl⟩
  have hreads : ReadsExprs n expr :=
    ⟨fun e us he hus => haccepts _ _ _ ⟨e, he, hus, rfl, rfl⟩,
      fun s a r ha => expression_starts s a r (hrun s a r ha)⟩
  exact disjunction_accepts hreads e us ⟨he, he.strength_pos⟩ hus

end Grammar

end MiniJava
