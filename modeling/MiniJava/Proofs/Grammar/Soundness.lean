import MiniJava.Proofs.Grammar.Ensures
import MiniJava.Proofs.Grammar.Operands
import MiniJava.Proofs.Grammar.Reads

/-!
# Reading loses and invents nothing

Every production of the grammar passes over exactly the tokens that spell the node it yields, and
the node is in grammar shape: `Spelled S` says both. The productions come in the order of the
grammar, each assembled from the rules of `Reads`.

An `else` belongs to the nearest `if` because a statement that ends with an open `if` has tried to
read one (`Closes`). This and what a statement spells are proved of all statements together, by
induction on what is left.
-/

namespace MiniJava

open MiniJava.Parser RawNode
open Token (enclosed commaSeparated)

/-! ## Nodes -/

/-- The node is of the sort `S`, positions aside, and spelled by these tokens. -/
abbrev Spelled (S : RawNode → Prop) : List Token → RawNode → Prop :=
  Spells (fun n => n.unplaced.tokens) fun n => S n.unplaced

theorem spelled_place {S : RawNode → Prop} {ts : List Token} {l : Label} {offset? : Option String}
    {as : List (String × String)} {ns : List RawNode} (has : as.all (isLasting ·.1) = true)
    (hts : ts = (plain l as (ns.map unplaced)).tokens) (hS : S (plain l as (ns.map unplaced))) :
    Spelled S ts (place l.name offset? as ns) := by
  rw [Spelled, Spells, unplaced_place _ _ as (List.all_eq_true.mp has) ns]
  exact ⟨hts, hS⟩

namespace Grammar

variable {expr stmt : Parser RawNode}

/-! ## Atoms -/

theorem integerLiteral_reads : integerLiteral.Reads (Spelled (IsOperand 9)) := by
  refine .here_bind fun p => .satisfy_bind fun t digits h => .pure ?_
  cases t with
  | integer digits' =>
    cases h
    exact spelled_place (l := .intLit) rfl rfl ⟨.intLit digits, Nat.le_refl 9⟩
  | _ => cases h

theorem booleanLiteral_reads : booleanLiteral.Reads (Spelled (IsOperand 9)) := by
  refine .here_bind fun p => .satisfy_bind fun t value h => .pure ?_
  split at h <;> cases h
  · exact spelled_place (l := .boolLit) rfl rfl ⟨.boolLit true, Nat.le_refl 9⟩
  · exact spelled_place (l := .boolLit) rfl rfl ⟨.boolLit false, Nat.le_refl 9⟩

theorem thisExpr_reads : thisExpr.Reads (Spelled (IsOperand 9)) :=
  .here_bind fun _ => .token_bind (.pure
    (spelled_place (l := .this) rfl rfl ⟨.this, Nat.le_refl 9⟩))

theorem newArray_reads (h : expr.Reads (Spelled IsExpr)) :
    (newArray expr).Reads (Spelled (IsOperand 9)) := by
  refine .here_bind fun p => .token_bind (.satisfy_bind fun t element ht => ?_)
  refine .bind_spells (.between_spells h) fun size hsize => .pure ?_
  have hname : t = .ofName element ∧ (element = "int" ∨ element = "boolean") := by
    split at ht <;> cases ht
    · exact ⟨rfl, .inl rfl⟩
    · exact ⟨rfl, .inr rfl⟩
  refine spelled_place (l := .newArray) rfl ?_ ⟨.newArray hname.2 hsize, Nat.le_refl 9⟩
  simp [hname.1]

theorem newObject_reads : newObject.Reads (Spelled (IsOperand 9)) :=
  .here_bind fun _ => .token_bind (.ident_bind fun name => .token_bind (.token_bind (.pure
    (spelled_place (l := .newObject) rfl rfl ⟨.newObject name, Nat.le_refl 9⟩))))

theorem arrayLiteral_reads (h : expr.Reads (Spelled IsExpr)) :
    (arrayLiteral expr).Reads (Spelled (IsOperand 9)) := by
  refine .here_bind fun p => .bind_spells (.between_spells (.sepBy h)) fun es hes => .pure ?_
  refine spelled_place (l := .arrayLit) rfl ?_ ⟨.arrayLit (List.forall_mem_map.mpr hes), Nat.le_refl 9⟩
  simp [Function.comp_def]

theorem parenthesis_reads (h : expr.Reads (Spelled IsExpr)) :
    (parenthesis expr).Reads (Spelled (IsOperand 9)) := by
  refine .here_bind fun p => .bind_spells (.between_spells h) fun inner hinner => .pure ?_
  exact spelled_place (l := .paren) rfl (by simp) ⟨.paren hinner, Nat.le_refl 9⟩

theorem variableRef_reads : variableRef.Reads (Spelled (IsOperand 9)) :=
  .here_bind fun _ => .ident_bind fun name => .pure
    (spelled_place (l := .varRef) rfl rfl ⟨.varRef name, Nat.le_refl 9⟩)

theorem atom_reads (h : expr.Reads (Spelled IsExpr)) :
    (atom expr).Reads (Spelled (IsOperand 9)) := by
  refine .choice fun q hq => ?_
  simp only [List.mem_cons, List.not_mem_nil, or_false] at hq
  rcases hq with rfl | rfl | rfl | rfl | rfl | rfl | rfl | rfl
  · exact integerLiteral_reads
  · exact booleanLiteral_reads
  · exact thisExpr_reads
  · exact newArray_reads h
  · exact newObject_reads
  · exact arrayLiteral_reads h
  · exact parenthesis_reads h
  · exact variableRef_reads

/-! ## Selectors -/

/-- The selector is in grammar shape, positions aside, and spelled by these tokens. -/
abbrev Selector.Spelled : List Token → Selector → Prop :=
  Spells (fun s => s.unplaced.tokens) fun s => s.unplaced.IsShaped

theorem member_reads (h : expr.Reads (Spelled IsExpr)) : (member expr).Reads Selector.Spelled := by
  -- the arguments with their parentheses, where there are some
  let w (arguments : Option (List RawNode)) : List Token := arguments.elim [] fun es =>
    enclosed .openParen .closeParen (commaSeparated (es.map fun e => e.unplaced.tokens))
  have harguments : (optional (between .openParen .closeParen (sepBy expr (punct .comma)))).Reads
      (Spells w fun as? => ∀ as ∈ as?, ∀ a ∈ as, a.unplaced.IsExpr) := by
    refine .optional ((Reads.between_spells (.sepBy h)).mono ?_) ⟨rfl, fun _ h => nomatch h⟩
    rintro _ as ⟨rfl, has⟩
    refine ⟨rfl, ?_⟩
    rintro _ ⟨⟩
    exact has
  refine .tryMap (R := fun ts m => ts = .punct .dot :: .ident m.1 :: w m.2 ∧
      ∀ as ∈ m.2, ∀ a ∈ as, a.unplaced.IsExpr) ?_ ?_
  · refine .token_bind (.ident_bind fun name => .bind_spells harguments fun as? has => .pure ?_)
    simpa using has
  · rintro _ ⟨name, as?⟩ s ⟨rfl, has⟩ hs
    cases as? with
    | some as =>
      cases hs
      refine ⟨?_, .call name (List.forall_mem_map.mpr (has as rfl))⟩
      simp [w, Selector.unplaced, Selector.tokens, Function.comp_def]
    | none =>
      simp only at hs
      split at hs <;> cases hs
      rename_i hname
      subst hname
      exact ⟨rfl, .length⟩

theorem subscript_reads (h : expr.Reads (Spelled IsExpr)) :
    (subscript expr).Reads Selector.Spelled := by
  refine .bind_spells (.between_spells h) fun e he => .pure ?_
  exact ⟨by simp [Selector.unplaced, Selector.tokens], .index he⟩

theorem selection_reads (h : expr.Reads (Spelled IsExpr)) :
    (selection expr).Reads (Spelled (IsOperand 8)) := by
  refine .bind_spells (atom_reads h) fun operand hoperand => ?_
  refine .bind_spells (.many_spells (.orElse (subscript_reads h) (member_reads h))) fun ss hss =>
    .pure ?_
  rw [Spelled, Spells, unplaced_foldl_apply, tokens_selected]
  refine ⟨by simp [List.flatMap_map], ?_⟩
  exact isOperand_selected (hoperand.mono (by omega)) (List.forall_mem_map.mpr hss)

/-! ## Operators -/

theorem negation_reads (h : expr.Reads (Spelled IsExpr)) :
    (negation expr).Reads (Spelled (IsOperand 7)) := by
  have hbang : (do let start ← here; punct .bang; return start : Parser Nat).Reads
      (Spells (fun _ => [.punct .bang]) fun _ => True) :=
    .here_bind fun _ => .token_bind (.pure ⟨rfl, trivial⟩)
  refine .bind_spells (.many_spells hbang) fun starts _ => ?_
  refine .bind_spells (selection_reads h) fun operand hoperand => .pure ?_
  rw [Spelled, Spells, unplaced_foldr_unary, tokens_negated]
  refine ⟨?_, isOperand_negated (hoperand.mono (by omega)) _⟩
  rw [List.append_nil, ← List.map_eq_flatMap, List.map_const']

theorem operator_reads (op : BinaryOp) :
    (operator op.punct).Reads (Spells operatorTokens (IsOperator op.strength)) := by
  refine .token_bind (.pure ⟨?_, op, op.text_punct, rfl⟩)
  rw [op.text_punct, operatorTokens_symbol]

theorem leftGrouped_reads {operand : Parser RawNode} {op : Parser String} {k : Nat}
    (h : operand.Reads (Spelled (IsOperand (k + 1))))
    (hop : op.Reads (Spells operatorTokens (IsOperator k))) :
    (leftGrouped operand op).Reads (Spelled (IsOperand k)) := by
  have hmore : (do let o ← op; let e ← operand; return (o, e) : Parser (String × RawNode)).Reads
      (Spells (fun r => operatorTokens r.1 ++ r.2.unplaced.tokens)
        fun r => IsOperator k r.1 ∧ r.2.unplaced.IsOperand (k + 1)) :=
    .bind_spells hop fun o ho => .bind_spells h fun e he => .pure ⟨by simp, ho, he⟩
  refine .bind_spells h fun first hfirst => ?_
  refine .bind_spells (.many_spells hmore) fun rest hrest => .pure ?_
  have hrest : AreOperations k (rest.map fun r => (r.1, r.2.unplaced)) :=
    List.forall_mem_map.mpr hrest
  rw [Spelled, Spells, unplaced_foldl_binary, tokens_grouped hrest]
  refine ⟨?_, isOperand_grouped (hfirst.mono (by omega)) hrest⟩
  simp [operationTokens, List.flatMap_map]

theorem expression_reads : expression.Reads (Spelled IsExpr) := by
  refine Reads.tie fun expr h => ?_
  have hproduct := leftGrouped_reads (negation_reads h)
    (.orElse (operator_reads .mul) (operator_reads .div))
  have hsum := leftGrouped_reads hproduct (.orElse (operator_reads .add) (operator_reads .sub))
  have hcompare : (choice (operator .lessEqual)
      [operator .greaterEqual, operator .less, operator .greater]).Reads
      (Spells operatorTokens (IsOperator 4)) := by
    refine .choice fun q hq => ?_
    simp only [List.mem_cons, List.not_mem_nil, or_false] at hq
    rcases hq with rfl | rfl | rfl | rfl
    · exact operator_reads .le
    · exact operator_reads .ge
    · exact operator_reads .lt
    · exact operator_reads .gt
  have hequality := leftGrouped_reads (leftGrouped_reads hsum hcompare)
    (.orElse (operator_reads .eq) (operator_reads .ne))
  have hall := leftGrouped_reads (leftGrouped_reads hequality (operator_reads .and))
    (operator_reads .or)
  exact hall.mono fun _ _ h => ⟨h.1, h.2.1⟩

/-! ## Statements -/

/-- A statement by itself, to which no `else` can belong. -/
def IsClosedStmt (n : RawNode) : Prop := n.IsStmt ∧ n.endsOpen = false

theorem condition_reads :
    condition.Reads (Spells (fun n => enclosed .openParen .closeParen n.unplaced.tokens)
      fun n => n.unplaced.IsExpr) :=
  .between_spells expression_reads

theorem block_reads (h : stmt.Reads (Spelled IsStmt)) :
    (block stmt).Reads (Spelled IsClosedStmt) := by
  refine .here_bind fun p => .bind_spells (.between_spells (.many_spells h)) fun ss hss => .pure ?_
  refine spelled_place (l := .block) rfl ?_ ⟨.block (List.forall_mem_map.mpr hss), rfl⟩
  simp [List.flatMap_map]

theorem returnStmt_reads : returnStmt.Reads (Spelled IsClosedStmt) := by
  have hvalue : (optional expression).Reads (Spells
      (fun e? => e?.toList.flatMap fun e => e.unplaced.tokens)
      fun e? => ∀ e ∈ e?, e.unplaced.IsExpr) := by
    refine .optional (expression_reads.mono ?_) ⟨rfl, fun _ h => nomatch h⟩
    rintro _ e ⟨rfl, he⟩
    refine ⟨by simp, ?_⟩
    rintro _ ⟨⟩
    exact he
  refine .here_bind fun p => .token_bind (.bind_spells hvalue fun e? he => .token_bind (.pure ?_))
  cases e? with
  | none => exact spelled_place (l := .returning) rfl rfl ⟨.returning none (by simp), rfl⟩
  | some e =>
    refine spelled_place (l := .returning) rfl (by simp) ⟨.returning (some e.unplaced) ?_, rfl⟩
    simpa using he

theorem assignStmt_reads : assignStmt.Reads (Spelled IsClosedStmt) :=
  .here_bind fun _ => .ident_bind fun target => .token_bind (.bind_spells expression_reads
    fun _ he => .token_bind (.pure (spelled_place (l := .assign) rfl (by simp) ⟨.assign target he, rfl⟩)))

theorem arrayAssignStmt_reads : arrayAssignStmt.Reads (Spelled IsClosedStmt) := by
  refine .here_bind fun p => .ident_bind fun target => ?_
  refine .bind_spells (.between_spells expression_reads) fun i hi => .token_bind ?_
  refine .bind_spells expression_reads fun e he => .token_bind (.pure ?_)
  exact spelled_place (l := .arrayAssign) rfl (by simp) ⟨.arrayAssign target hi he, rfl⟩

theorem exprStmt_reads : exprStmt.Reads (Spelled IsClosedStmt) :=
  .here_bind fun _ => .bind_spells expression_reads fun _ he => .token_bind (.pure
    (spelled_place (l := .exprStmt) rfl (by simp) ⟨.exprStmt he, rfl⟩))

theorem whileStmt_reads (h : stmt.Reads (Spelled IsStmt)) :
    (whileStmt stmt).Reads (Spelled IsStmt) := by
  refine .here_bind fun p => .token_bind (.bind_spells condition_reads fun c hc => ?_)
  refine .bind_spells h fun b hb => .pure ?_
  exact spelled_place (l := .whileLoop) rfl (by simp) (.whileLoop hc hb)

/-! ### The nearest `if` -/

/-- An `else` with a statement. -/
def elsePart (stmt : Parser RawNode) : Parser RawNode := do
  keyword .elseKw
  stmt

/-- Behind a statement that ends with an open `if` there is no `else` that `next` goes on from. -/
def Closes (stmt next : Parser RawNode) : Prop :=
  ∀ s n r, stmt.run s = some (n, r) → n.unplaced.endsOpen = true → (elsePart next).run r = none

theorem elsePart_reads (h : stmt.Reads (Spelled IsStmt)) :
    (elsePart stmt).Reads (Spells (fun n => .keyword .elseKw :: n.unplaced.tokens)
      fun n => n.unplaced.IsStmt) := by
  refine .token_bind (h.mono ?_)
  rintro _ n ⟨rfl, hn⟩
  exact ⟨rfl, hn⟩

/-- What an `if` has read: a condition, a statement and perhaps an `else` with another. -/
theorem exists_of_run_ifStmt {s r : Input} {n : RawNode}
    (hrun : (ifStmt stmt).run s = some (n, r)) :
    ∃ start c t s₁ s₂ s₃, (keyword .ifKw).run s = some ((), s₁) ∧ condition.run s₁ = some (c, s₂) ∧
      stmt.run s₂ = some (t, s₃) ∧
      ((elsePart stmt).run s₃ = none ∧ r = s₃ ∧ n = atOffset start "IfStmt" [] [c, t] ∨
        ∃ e, (elsePart stmt).run s₃ = some (e, r) ∧ n = atOffset start "IfStmt" [] [c, t, e]) := by
  have hpart : (do keyword .elseKw; stmt) = elsePart stmt := rfl
  simp only [ifStmt, hpart, run_bind, run_here, run_optional, Option.bind_some,
    Option.bind_eq_some_iff, Prod.exists] at hrun
  obtain ⟨⟨⟩, s₁, hif, c, s₂, hc, t, s₃, ht, hlast⟩ := hrun
  refine ⟨s.span.start, c, t, s₁, s₂, s₃, hif, hc, ht, ?_⟩
  cases he : (elsePart stmt).run s₃ with
  | none =>
    rw [he] at hlast
    cases hlast
    exact .inl ⟨rfl, rfl, rfl⟩
  | some m =>
    rw [he] at hlast
    cases hlast
    exact .inr ⟨m.1, rfl, rfl⟩

theorem ifStmt_reads (h : stmt.Reads (Spelled IsStmt)) (hcloses : Closes stmt stmt) :
    (ifStmt stmt).Reads (Spelled IsStmt) := by
  intro s n r hrun
  obtain ⟨p, c, t, s₁, s₂, s₃, hif, hc, ht, hlast⟩ := exists_of_run_ifStmt hrun
  obtain ⟨_, hs, rfl⟩ := Reads.token _ s _ _ hif
  obtain ⟨_, hs₁, rfl, hcondition⟩ := condition_reads s₁ c s₂ hc
  obtain ⟨_, hs₂, rfl, hthen⟩ := h s₂ t s₃ ht
  rcases hlast with ⟨-, rfl, rfl⟩ | ⟨e, he, rfl⟩
  · refine ⟨_, ?_, spelled_place (l := .ifElse) rfl rfl (.ifThen hcondition hthen)⟩
    simp [hs, hs₁, hs₂]
  · obtain ⟨_, hs₃, rfl, helse⟩ := elsePart_reads h s₃ e r he
    have hclosed : t.unplaced.endsOpen = false := by
      cases hopen : t.unplaced.endsOpen with
      | false => rfl
      | true =>
        rw [hcloses s₂ t s₃ ht hopen] at he
        cases he
    refine ⟨_, ?_, spelled_place (l := .ifElse) rfl rfl (.ifElse hcondition hthen hclosed helse)⟩
    simp [hs, hs₁, hs₂, hs₃]

theorem statementOf_reads (h : stmt.Reads (Spelled IsStmt)) (hcloses : Closes stmt stmt) :
    (statementOf stmt).Reads (Spelled IsStmt) := by
  have hmono {p : Parser RawNode} (hp : p.Reads (Spelled IsClosedStmt)) :
      p.Reads (Spelled IsStmt) := hp.mono fun _ _ h => ⟨h.1, h.2.1⟩
  refine .choice fun q hq => ?_
  simp only [List.mem_cons, List.not_mem_nil, or_false] at hq
  rcases hq with rfl | rfl | rfl | rfl | rfl | rfl | rfl
  · exact hmono (block_reads h)
  · exact ifStmt_reads h hcloses
  · exact whileStmt_reads h
  · exact hmono returnStmt_reads
  · exact hmono assignStmt_reads
  · exact hmono arrayAssignStmt_reads
  · exact hmono exprStmt_reads

theorem run_elsePart (stmt : Parser RawNode) (s : Input) :
    (elsePart stmt).run s =
      if s.tokens.head? = some (.keyword .elseKw) then stmt.run s.advance else none := by
  rw [elsePart, run_bind, Parser.keyword, run_token]
  split <;> rfl

/-- What refuses an `else` here refuses it also when it goes on with `stmt'` instead, if the two agree
on what is left. -/
theorem run_elsePart_congr {stmt stmt' : Parser RawNode} {s r : Input} (hr : r.left ≤ s.left)
    (h : ∀ t, t.left < s.left → stmt.run t = stmt'.run t) :
    (elsePart stmt).run r = (elsePart stmt').run r := by
  rw [run_elsePart, run_elsePart]
  split
  · rename_i hhead
    obtain ⟨ts, hts⟩ := List.head?_eq_some_iff.mp hhead
    have hleft := Input.left_advance hts
    exact h _ (by omega)
  · rfl

theorem ifStmt_closes {next : Parser RawNode} {s r : Input} {n : RawNode}
    (h : stmt.Reads (Spelled IsStmt)) (hcloses : Closes stmt next)
    (hnext : ∀ t, t.left < s.left → stmt.run t = next.run t)
    (hrun : (ifStmt stmt).run s = some (n, r)) (hopen : n.unplaced.endsOpen = true) :
    (elsePart next).run r = none := by
  obtain ⟨p, c, t, s₁, s₂, s₃, hif, hc, ht, hlast⟩ := exists_of_run_ifStmt hrun
  rcases hlast with ⟨hnone, rfl, -⟩ | ⟨e, he, rfl⟩
  · have hif := (Reads.token _).left_le hif
    have hc := condition_reads.left_le hc
    have ht := h.left_le ht
    rw [← run_elsePart_congr (by omega) hnext, hnone]
  · have he : stmt.run s₃.advance = some (e, r) := by
      rw [run_elsePart] at he
      split at he
      · exact he
      · cases he
    have hplain := unplaced_place "IfStmt" (some (toString p)) [] (by simp) [c, t, e]
    refine hcloses s₃.advance e r he ?_
    rw [← endsOpen_ifElse c.unplaced t.unplaced, ← hopen]
    exact (congrArg endsOpen hplain).symm

theorem whileStmt_closes {next : Parser RawNode} {s r : Input} {n : RawNode}
    (hcloses : Closes stmt next) (hrun : (whileStmt stmt).run s = some (n, r))
    (hopen : n.unplaced.endsOpen = true) : (elsePart next).run r = none := by
  simp only [whileStmt, run_bind, run_here, Option.bind_some, Option.bind_eq_some_iff,
    Prod.exists] at hrun
  obtain ⟨⟨⟩, s₁, -, c, s₂, -, b, s₃, hb, hlast⟩ := hrun
  cases hlast
  have hplain := unplaced_place "WhileStmt" (some (toString s.span.start)) [] (by simp) [c, b]
  refine hcloses s₂ b r hb ?_
  rw [← endsOpen_whileLoop c.unplaced, ← hopen]
  exact (congrArg endsOpen hplain).symm

/-- Only an `if` or a loop can end with an open `if`. -/
theorem statementOf_closes {next : Parser RawNode} {s r : Input} {n : RawNode}
    (h : stmt.Reads (Spelled IsStmt)) (hcloses : Closes stmt next)
    (hnext : ∀ t, t.left < s.left → stmt.run t = next.run t)
    (hrun : (statementOf stmt).run s = some (n, r)) (hopen : n.unplaced.endsOpen = true) :
    (elsePart next).run r = none := by
  have hclosed {p : Parser RawNode} (hp : p.Reads (Spelled IsClosedStmt))
      (hrun : p.run s = some (n, r)) : (elsePart next).run r = none := by
    obtain ⟨_, -, -, -, hclosed⟩ := hp s n r hrun
    rw [hclosed] at hopen
    cases hopen
  rw [statementOf, run_choice] at hrun
  obtain ⟨q, hq, hrun⟩ := List.exists_of_findSome?_eq_some hrun
  simp only [List.mem_cons, List.not_mem_nil, or_false] at hq
  rcases hq with rfl | rfl | rfl | rfl | rfl | rfl | rfl
  · exact hclosed (block_reads h) hrun
  · exact ifStmt_closes h hcloses hnext hrun hopen
  · exact whileStmt_closes hcloses hrun hopen
  · exact hclosed returnStmt_reads hrun
  · exact hclosed assignStmt_reads hrun
  · exact hclosed arrayAssignStmt_reads hrun
  · exact hclosed exprStmt_reads hrun

/-- What a statement reads, and that it leaves no `else` to an open `if`: each needs the other for
the statements inside. -/
theorem statement_reads_and_closes (s : Input) (n : RawNode) (r : Input)
    (hrun : statement.run s = some (n, r)) :
    (∃ ts, s.tokens = ts ++ r.tokens ∧ Spelled IsStmt ts n) ∧
      (n.unplaced.endsOpen = true → (elsePart statement).run r = none) := by
  induction hn : s.left using Nat.strongRecOn generalizing s n r with
  | ind k ih =>
    have hbelow (t : Input) (m : RawNode) (r' : Input)
        (ht : (reference statementOf s).run t = some (m, r')) :
        t.left < s.left ∧ statement.run t = some (m, r') := by
      rw [run_reference] at ht
      split at ht
      · exact ⟨‹_›, ht⟩
      · cases ht
    have href : (reference statementOf s).Reads (Spelled IsStmt) := fun t m r' ht =>
      have ⟨hlt, ht⟩ := hbelow t m r' ht
      (ih t.left (hn ▸ hlt) t m r' ht rfl).1
    have hcloses : Closes (reference statementOf s) statement := fun t m r' ht =>
      have ⟨hlt, ht⟩ := hbelow t m r' ht
      (ih t.left (hn ▸ hlt) t m r' ht rfl).2
    have hagree (t : Input) (ht : t.left < s.left) :
        (reference statementOf s).run t = statement.run t := by
      rw [run_reference, if_pos ht]
      rfl
    have hself : Closes (reference statementOf s) (reference statementOf s) := by
      intro t m r' ht hopen
      have hle := href.left_le ht
      rw [run_elsePart_congr (by have := (hbelow t m r' ht).1; omega) hagree]
      exact hcloses t m r' ht hopen
    have hrun : (statementOf (reference statementOf s)).run s = some (n, r) := by
      rw [← run_tie]
      exact hrun
    constructor
    · exact statementOf_reads href hself s n r hrun
    · exact statementOf_closes href hcloses hagree hrun

theorem statement_reads : statement.Reads (Spelled IsStmt) := fun s n r hrun =>
  (statement_reads_and_closes s n r hrun).1

/-! ## Types -/

theorem basicType_reads : basicType.Reads (Spelled IsFlatType) := by
  refine .satisfy fun t n h => ?_
  split at h <;> cases h
  · exact ⟨rfl, .int⟩
  · exact ⟨rfl, .boolean⟩
  · exact ⟨rfl, .string⟩
  · exact ⟨rfl, .void⟩

theorem classType_reads : classType.Reads (Spelled IsFlatType) :=
  .ident_bind fun name => .pure ⟨rfl, .named name⟩

/-- How the end of a type is written that has this kind. -/
def suffixTokens (kind : String) : List Token :=
  if kind = "ArrayType" then [.punct .openBracket, .punct .closeBracket] else [.punct .ellipsis]

theorem writtenType_reads : writtenType.Reads (Spelled IsType) := by
  have hsuffix : (optional (arraySuffix <|> varargsSuffix)).Reads
      (Spells (fun k? => k?.elim [] suffixTokens)
        fun k? => ∀ k ∈ k?, k = "ArrayType" ∨ k = "VarArgsType") := by
    refine .optional (.orElse ?_ ?_) ⟨rfl, fun _ h => nomatch h⟩
    · exact .token_bind (.token_bind (.pure ⟨rfl, by simp⟩))
    · exact .token_bind (.pure ⟨rfl, by simp⟩)
  refine .bind_spells (.orElse basicType_reads classType_reads) fun t ht => ?_
  refine .bind_spells hsuffix fun k? hk => .pure ?_
  cases k? with
  | none => exact ⟨by simp, .flat ht⟩
  | some k =>
    have hunplaced (kind : String) :
        (typeNode kind [] [t]).unplaced = typeNode kind [] [t.unplaced] :=
      unplaced_place kind none [] (by simp) [t]
    rcases hk k rfl with rfl | rfl
    · simp only [Spelled, Spells, hunplaced]
      exact ⟨by simp [suffixTokens], .array ht⟩
    · simp only [Spelled, Spells, hunplaced]
      exact ⟨by simp [suffixTokens], .varargs ht⟩

/-! ## Declarations -/

theorem ident_reads : ident.Reads (Spells (fun name => [.ident name]) fun _ => True) := by
  refine .satisfy fun t name hname => ?_
  cases t with
  | ident name' =>
    cases hname
    exact ⟨rfl, trivial⟩
  | _ => cases hname

/-- The path of an import is written as it was read if its names have no dots in them. -/
theorem importDecl_reads : importDecl.Reads fun ts n =>
    (∀ t ∈ ts, t.IsUndotted) → Spelled IsImport ts n := by
  refine .here_bind fun p => .token_bind (.bind_spells (.sepBy1 ident_reads) ?_)
  rintro names ⟨hne, -⟩
  refine .token_bind (.pure fun hundotted => ?_)
  refine spelled_place (l := .importDecl) rfl ?_ (.mk _)
  have hnames (name : String) (hname : name ∈ names) : (Token.ident name).IsUndotted := by
    have hrow := List.mem_map_of_mem (f := fun name => [Token.ident name]) hname
    refine hundotted _ (List.mem_cons_of_mem _ (List.mem_append_left _ ?_))
    exact mem_intercalate hrow List.mem_cons_self _
  simp [Token.dotted_intercalate hne hnames]

theorem varDecl_reads : varDecl.Reads (Spelled IsVarDecl) := by
  refine .here_bind fun p => .bind_spells writtenType_reads fun t ht => ?_
  refine .ident_bind fun name => .token_bind (.pure ?_)
  exact spelled_place (l := .varDecl) rfl (by simp) (.mk name ht)

theorem param_reads : param.Reads (Spelled IsParam) := by
  refine .here_bind fun p => .bind_spells writtenType_reads fun t ht => ?_
  refine .ident_bind fun name => .pure ?_
  exact spelled_place (l := .param) rfl (by simp) (.mk name ht)

/-- A reserved word that may be missing. -/
theorem flag_reads (k : Keyword) : (optional (Parser.keyword k)).Reads
    (Spells (fun u => if u.isSome then [.keyword k] else []) fun _ => True) :=
  .optional ((Reads.token _).mono fun _ _ h => ⟨h, trivial⟩) ⟨rfl, trivial⟩

/-- What stands in the body of a method. -/
theorem bodyItem_reads :
    (varDecl <|> statement).Reads (Spelled fun n => n.IsVarDecl ∨ n.IsStmt) :=
  .orElse (varDecl_reads.mono fun _ _ h => ⟨h.1, .inl h.2⟩)
    (statement_reads.mono fun _ _ h => ⟨h.1, .inr h.2⟩)

theorem methodDecl_reads : methodDecl.Reads (Spelled IsMethod) := by
  refine .here_bind fun p => .bind_spells (flag_reads _) fun isPublic _ => ?_
  refine .bind_spells (flag_reads _) fun isStatic _ => ?_
  refine .bind_spells writtenType_reads fun t ht => .ident_bind fun name => ?_
  refine .bind_spells (.between_spells (.sepBy param_reads)) fun ps hps => ?_
  refine .bind_spells (.between_spells (.many_spells bodyItem_reads)) fun body hbody => .pure ?_
  have hps : ∀ n ∈ ps.map unplaced, n.IsParam := List.forall_mem_map.mpr hps
  have hbody : ∀ n ∈ body.map unplaced, n.IsVarDecl ∨ n.IsStmt := List.forall_mem_map.mpr hbody
  have hchildren : (t :: ps ++ body).map unplaced =
      t.unplaced :: ps.map unplaced ++ body.map unplaced := by simp
  refine spelled_place (l := .methodDecl) rfl ?_ ?_
  · rw [hchildren, ht.tokens_methodDecl hps hbody]
    simp [List.flatMap_map, Function.comp_def]
  · rw [hchildren]
    exact .mk _ _ name ht hps hbody

theorem classDecl_reads : classDecl.Reads (Spelled IsClass) := by
  have hmember : (varDecl <|> methodDecl).Reads (Spelled fun n => n.IsVarDecl ∨ n.IsMethod) :=
    .orElse (varDecl_reads.mono fun _ _ h => ⟨h.1, .inl h.2⟩)
      (methodDecl_reads.mono fun _ _ h => ⟨h.1, .inr h.2⟩)
  have hsuper : (optional (do Parser.keyword .extendsKw; ident)).Reads
      (Spells writeSuperclass fun _ => True) :=
    .optional (.token_bind (ident_reads.mono fun _ _ h => ⟨by rw [h.1]; rfl, trivial⟩))
      ⟨rfl, trivial⟩
  refine .here_bind fun p => .token_bind (.ident_bind fun name => ?_)
  refine .bind_spells hsuper fun superclass _ => ?_
  refine .bind_spells (.between_spells (.many_spells hmember)) fun ns hns => .pure ?_
  refine spelled_place (l := .classDecl) ?_ ?_ (.mk name superclass (List.forall_mem_map.mpr hns))
  · cases superclass <;> rfl
  · simp [List.flatMap_map]

/-- A program is written as it was read if the names in it have no dots in them. -/
theorem program_reads : program.Reads fun ts n =>
    (∀ t ∈ ts, t.IsUndotted) → Spelled IsProgram ts n := by
  have hitem : (importDecl <|> classDecl).Reads fun ts n =>
      (∀ t ∈ ts, t.IsUndotted) → Spelled (fun n => n.IsImport ∨ n.IsClass) ts n :=
    .orElse (importDecl_reads.mono fun _ _ h hts => ⟨(h hts).1, .inl (h hts).2⟩)
      (classDecl_reads.mono fun _ _ h _ => ⟨h.1, .inr h.2⟩)
  refine .here_bind fun p => .bind (.many (R := fun ts ns => (∀ t ∈ ts, t.IsUndotted) →
    ts = ns.flatMap (fun n => n.unplaced.tokens) ∧
      ∀ n ∈ ns, n.unplaced.IsImport ∨ n.unplaced.IsClass) hitem ?_ ?_) ?_
  · exact fun _ => ⟨rfl, fun _ h => nomatch h⟩
  · intro ts n us ns hn hns hundotted
    obtain ⟨hts, hus⟩ := List.forall_mem_append.mp hundotted
    obtain ⟨rfl, hitem⟩ := hn hts
    obtain ⟨rfl, hitems⟩ := hns hus
    exact ⟨rfl, List.forall_mem_cons.mpr ⟨hitem, hitems⟩⟩
  · intro ts ns h
    refine .bind (R := fun ts _ => ts = []) ?_ ?_
    · intro s u r hrun
      rw [run_endOfInput] at hrun
      split at hrun <;> cases hrun
      exact ⟨[], rfl, rfl⟩
    · rintro _ ⟨⟩ rfl
      refine .pure fun hundotted => ?_
      simp only [List.append_nil] at hundotted ⊢
      obtain ⟨rfl, hns⟩ := h hundotted
      refine spelled_place (l := .program) rfl ?_ (.mk (List.forall_mem_map.mpr hns))
      simp [List.flatMap_map]

/-- A program goes up to the end of the text. -/
theorem tokens_eq_nil_of_run_program {s r : Input} {n : RawNode}
    (h : program.run s = some (n, r)) : r.tokens = [] := by
  simp only [program, run_bind, run_here, run_endOfInput, Option.bind_some,
    Option.bind_eq_some_iff, Prod.exists] at h
  obtain ⟨ns, s₁, -, u, s₂, hend, hlast⟩ := h
  cases hlast
  split at hend <;> cases hend
  assumption

end Grammar

/-! ## Texts -/

/-- No character of a name is a dot. -/
theorem Token.IsLexical.isUndotted {t : Token} (h : t.IsLexical) : t.IsUndotted := by
  cases t with
  | ident name => exact fun hdot => absurd (h.1.isNamePart _ hdot) (by decide)
  | _ => trivial

/-- No identifier of a text has a dot in it. -/
theorem Input.ofPieces_isUndotted (size : Nat) (text : List Char) :
    ∀ t ∈ (Input.ofPieces size (pieces 0 text)).tokens, t.IsUndotted := by
  intro t ht
  obtain ⟨l, hl, rfl⟩ := List.mem_map.mp ht
  exact (Input.isLexical_ofPieces hl).isUndotted

/-! ## Programs -/

theorem run_program_of_parseInput {s : Input} {n : RawNode} (h : parseInput s = .ok n) :
    ∃ r, Grammar.program.run s = some (n, r) := by
  unfold parseInput at h
  split at h <;> cases h
  rename_i alt r hrun
  exact ⟨r, run_eq_some_iff.mpr ⟨alt, hrun⟩⟩

/-- The program that a text spells is the one that its tokens spell, with positions for offsets. -/
theorem exists_parseInput_of_parse {source : String} {n : RawNode} (h : parse source = .ok n) :
    ∃ tree, parseInput (.ofPieces (byteLength source.toList) (pieces 0 source.toList)) = .ok tree ∧
      n = tree.resolvePositions (.ofText source.toList) := by
  unfold parse at h
  simp only at h
  split at h
  · split at h <;> cases h
    exact ⟨_, ‹_›, rfl⟩
  · cases h

/-- A program that has been read is in grammar shape and spells the tokens. -/
theorem spelled_of_parseInput {s : Input} {n : RawNode} (hs : ∀ t ∈ s.tokens, t.IsUndotted)
    (h : parseInput s = .ok n) : Spelled IsProgram s.tokens n := by
  obtain ⟨r, hrun⟩ := run_program_of_parseInput h
  obtain ⟨ts, hts, hspelled⟩ := Grammar.program_reads s n r hrun
  rw [Grammar.tokens_eq_nil_of_run_program hrun, List.append_nil] at hts
  rw [hts] at hs ⊢
  exact hspelled hs

/-- **Reading loses and invents nothing.** The tree of a program is in grammar shape, and written out
it is the row of tokens that was read. Identifiers must not have dots in them, as those of a text
have not. -/
theorem isProgram_and_tokens_of_parseInput {s : Input} {n : RawNode}
    (hs : ∀ t ∈ s.tokens, t.IsUndotted) (h : parseInput s = .ok n) :
    n.unplaced.IsProgram ∧ n.tokens = s.tokens := by
  obtain ⟨htokens, hprogram⟩ := spelled_of_parseInput hs h
  exact ⟨hprogram, (tokens_unplaced n).symm.trans htokens.symm⟩

theorem isProgram_and_tokens_of_parseInput_difference :
    let s : Input := .ofPieces 0 (pieces 0 "class A { int f() { return 3 - 2 - 1; } }".toList)
    ∃ n, (∀ t ∈ s.tokens, t.IsUndotted) ∧ parseInput s = .ok n ∧
      n.unplaced.IsProgram ∧ n.tokens = s.tokens := by
  intro s
  have hs : ∀ t ∈ s.tokens, t.IsUndotted := Input.ofPieces_isUndotted _ _
  have hok : (parseInput s).isOk = true := by decide +kernel
  cases h : parseInput s with
  | error failure => rw [h] at hok; cases hok
  | ok n => exact ⟨n, hs, rfl, isProgram_and_tokens_of_parseInput hs h⟩

end MiniJava
