import MiniJava.Proofs.Grammar.Soundness
import MiniJava.Proofs.Layout.Tree
import MiniJava.Proofs.Tree.Read

/-!
# The trees of the grammar

What the grammar reads becomes a well-formed tree: every production ensures that its raw node
`ReadsAs` the sort that it stands for, given that the parsers for its parts do. What a raw node must
have in its places for this comes first (`RawNode.Suits`), then the productions in the order of the
grammar.

The main result is `wellFormed_of_parse`.
-/

namespace MiniJava

/-! ## Raw nodes -/

namespace RawNode

variable {S : Label → Prop} {offset? : Option String} {as : List (String × String)} {raws : List RawNode}

theorem attr_value_yields (kind : String) (offset? : Option String) (value : String)
    (raws : List RawNode) {E : TreeError → Prop} :
    Yields (liftM ((place kind offset? [("value", value)] raws).attr "value") : Node.Numbering String)
      (· = value) E := by
  have hattr : (place kind offset? [("value", value)] raws).attr "value" = .ok value := by
    cases offset? <;> simp [attr, get?, place, Attributes.ofList, Attributes.get?_insert]
  rw [hattr]
  exact .lift (fun _ h => (Except.ok.inj h).symm) fun _ h => by cases h

theorem attr_name_yields (kind : String) (offset? : Option String) (name : String)
    (superclass : Option String) (raws : List RawNode) {E : TreeError → Prop} :
    Yields (liftM ((place kind offset? (("name", name) :: superclass.toList.map fun s => ("ext", s))
      raws).attr "name") : Node.Numbering String) (· = name) E := by
  have hattr : (place kind offset? (("name", name) :: superclass.toList.map fun s => ("ext", s))
      raws).attr "name" = .ok name := by
    cases offset? <;> cases superclass <;>
      simp [attr, get?, place, Attributes.ofList, Attributes.get?_insert]
  rw [hattr]
  exact .lift (fun _ h => (Except.ok.inj h).symm) fun _ h => by cases h

/-- A raw node with these attributes has in its places what a node of the sort has there. -/
def Suits (as : List (String × String)) (raws : List RawNode) : Label → Prop
  | .intLit | .boolLit | .this | .importDecl | .varDecl | .param => True
  | .varRef | .newObject => ∃ name, as = [("value", name)] ∧ IsIdentifier name
  | .unary | .newArray | .arrayLength | .paren | .assign | .exprStmt =>
    ∃ a, raws = [a] ∧ a.ReadsAsExpr
  | .binary | .arrayAccess | .arrayAssign =>
    ∃ a b, raws = [a, b] ∧ a.ReadsAsExpr ∧ b.ReadsAsExpr
  | .arrayLit => ∀ r ∈ raws, r.ReadsAsExpr
  | .call => ∃ a rs, raws = a :: rs ∧ a.ReadsAsExpr ∧ ∀ r ∈ rs, r.ReadsAsExpr
  | .returning => ∃ a? : Option RawNode, raws = a?.toList ∧ ∀ a ∈ a?, a.ReadsAsExpr
  | .block => ∀ r ∈ raws, r.ReadsAsStmt
  | .whileLoop => ∃ a b, raws = [a, b] ∧ a.ReadsAsExpr ∧ b.ReadsAsStmt
  | .ifElse => ∃ (a b : RawNode) (c? : Option RawNode), raws = a :: b :: c?.toList ∧
    a.ReadsAsExpr ∧ b.ReadsAsStmt ∧ ∀ c ∈ c?, c.ReadsAsStmt
  | .methodDecl => ∀ r ∈ raws, isTypeKind r.kind = true ∨ r.ReadsAs fun _ => True
  | .classDecl => (∃ name superclass, IsIdentifier name ∧
      as = ("name", name) :: (Option.toList superclass).map fun s => ("ext", s)) ∧
    ∀ r ∈ raws, r.ReadsAs fun _ => True
  | .program => ∀ r ∈ raws, r.ReadsAs fun _ => True

/-- A place for one child that may be missing. -/
theorem readChild?_yields {a? : Option RawNode} (h : ∀ a ∈ a?, a.ReadsAs S) :
    Yields (Node.readChild? a?.toList 0) (fun n? => ∀ n ∈ n?, n.WellFormed ∧ S n.label)
      fun _ => True := by
  cases a? with
  | none => exact .pure fun _ h => nomatch h
  | some a =>
    refine (h a rfl).bind fun n hn => .pure ?_
    rintro _ ⟨⟩
    exact hn

/-- **A raw node with the right parts reads as a node of its sort.** -/
theorem readsAs_place {l : Label} (hS : S l) (h : Suits as raws l) :
    (place l.name offset? as raws).ReadsAs S := by
  unfold ReadsAs place Node.read
  simp only [Label.ofName?_name]
  cases l with
  | intLit | boolLit | this | importDecl | varDecl | param =>
    repeat (first
      | exact Node.finish_wellFormed (by rintro _ ⟨⟩) (List.forall_mem_nil _) hS
      | refine Yields.seq fun _ => ?_)
  | varRef | newObject =>
    obtain ⟨name, rfl, hname⟩ := h
    refine (attr_value_yields _ offset? name raws).bind fun _ h => ?_
    subst h
    exact Node.finish_wellFormed hname (List.forall_mem_nil _) hS
  | newArray | arrayLength | paren | exprStmt =>
    obtain ⟨a, rfl, ha⟩ := h
    exact ha.bind fun n hn => Node.finish_exprs id (List.forall_mem_singleton.mpr hn) hS
  | unary | assign =>
    obtain ⟨a, rfl, ha⟩ := h
    exact .seq fun _ => ha.bind fun n hn =>
      Node.finish_exprs id (List.forall_mem_singleton.mpr hn) hS
  | arrayAccess =>
    obtain ⟨a, b, rfl, ha, hb⟩ := h
    exact ha.bind fun m hm => hb.bind fun n hn => Node.finish_exprs id
      (List.forall_mem_cons.mpr ⟨hm, List.forall_mem_singleton.mpr hn⟩) hS
  | binary | arrayAssign =>
    obtain ⟨a, b, rfl, ha, hb⟩ := h
    exact .seq fun _ => ha.bind fun m hm => hb.bind fun n hn => Node.finish_exprs id
      (List.forall_mem_cons.mpr ⟨hm, List.forall_mem_singleton.mpr hn⟩) hS
  | arrayLit =>
    exact (Node.readAll_yields h).bind fun ns hns => Node.finish_exprs id hns hS
  | call =>
    obtain ⟨a, rs, rfl, ha, hrs⟩ := h
    exact ha.bind fun m hm => .seq fun _ => (Node.readAll_yields hrs).bind fun ns hns =>
      Node.finish_exprs id (List.forall_mem_cons.mpr ⟨hm, hns⟩) hS
  | returning =>
    obtain ⟨a?, rfl, ha⟩ := h
    exact (readChild?_yields ha).bind fun n? hn? =>
      Node.finish_exprs id (fun n hn => hn? n (Option.mem_toList.mp hn)) hS
  | block =>
    refine (Node.readAll_yields h).bind fun ns hns => ?_
    exact Node.finish_wellFormed (fun n hn => (hns n hn).2) (fun n hn => (hns n hn).1) hS
  | whileLoop =>
    obtain ⟨a, b, rfl, ha, hb⟩ := h
    refine ha.bind fun m hm => hb.bind fun n hn => ?_
    exact Node.finish_wellFormed ⟨hm.2, hn.2⟩
      (List.forall_mem_cons.mpr ⟨hm.1, List.forall_mem_singleton.mpr hn.1⟩) hS
  | ifElse =>
    obtain ⟨a, b, c?, rfl, ha, hb, hc⟩ := h
    refine ha.bind fun m hm => hb.bind fun n hn => (readChild?_yields hc).bind fun n? hn? => ?_
    refine Node.finish_wellFormed ⟨hm.2, hn.2, fun n h => (hn? n h).2⟩ ?_ hS
    refine List.forall_mem_cons.mpr ⟨hm.1, List.forall_mem_cons.mpr ⟨hn.1, ?_⟩⟩
    exact fun n h => (hn? n (Option.mem_toList.mp h)).1
  | methodDecl =>
    have hparts : Node.MethodParts.Fit {} :=
      ⟨List.forall_mem_nil _, List.forall_mem_nil _, List.forall_mem_nil _⟩
    refine (Node.readMethod_yields _ hparts h).bind ?_
    rintro parts ⟨hparams, hlocals, hbody⟩
    refine .seq fun name => Node.finish_wellFormed ⟨?_, ?_, ?_⟩ ?_ hS
    · exact fun n hn => (hparams n (List.mem_reverse.mp hn)).2
    · exact fun n hn => (hlocals n (List.mem_reverse.mp hn)).2
    · exact fun n hn => (hbody n (List.mem_reverse.mp hn)).2
    · intro n hn
      simp only [Kind.children, List.mem_append, List.mem_reverse] at hn
      rcases hn with (hn | hn) | hn
      · exact (hparams n hn).1
      · exact (hlocals n hn).1
      · exact (hbody n hn).1
  | classDecl =>
    obtain ⟨⟨name, superclass, hname, rfl⟩, h⟩ := h
    refine (Node.readMembers_yields _ h).bind ?_
    rintro ⟨fields, methods⟩ ⟨hfields, hmethods⟩
    refine (attr_name_yields _ offset? name superclass raws).bind fun _ h => ?_
    subst h
    refine Node.finish_wellFormed
      ⟨hname, fun n hn => (hfields n hn).2, fun n hn => (hmethods n hn).2⟩ ?_ hS
    intro n hn
    rcases List.mem_append.mp hn with hn | hn
    · exact (hfields n hn).1
    · exact (hmethods n hn).1
  | program =>
    refine (Node.readItems_yields _ h).bind fun ns hns => ?_
    exact Node.finish_wellFormed (fun n hn => (hns n hn).2) (fun n hn => (hns n hn).1) hS

end RawNode

/-! ## Expressions -/

namespace Grammar

open MiniJava.Parser RawNode

variable {expr stmt : Parser RawNode}

theorem integerLiteral_ensures : integerLiteral.Ensures ReadsAsExpr :=
  Ensures.here.seq fun _ => Ensures.satisfy_true.seq fun _ => .pure
    (readsAs_place (l := .intLit) rfl trivial)

theorem booleanLiteral_ensures : booleanLiteral.Ensures ReadsAsExpr :=
  Ensures.here.seq fun _ => Ensures.satisfy_true.seq fun _ => .pure
    (readsAs_place (l := .boolLit) rfl trivial)

theorem thisExpr_ensures : thisExpr.Ensures ReadsAsExpr :=
  Ensures.here.seq fun _ => (Ensures.keyword _).seq fun _ => .pure
    (readsAs_place (l := .this) rfl trivial)

theorem newArray_ensures (h : expr.Ensures ReadsAsExpr) : (newArray expr).Ensures ReadsAsExpr :=
  Ensures.here.seq fun _ => (Ensures.keyword _).seq fun _ => Ensures.satisfy_true.seq fun _ =>
    (Ensures.between h).bind fun _ hsize => .pure
      (readsAs_place (l := .newArray) rfl ⟨_, rfl, hsize⟩)

theorem newObject_ensures : newObject.Ensures ReadsAsExpr :=
  Ensures.here.seq fun _ => (Ensures.keyword _).seq fun _ => Ensures.ident.bind fun _ hname =>
    (Ensures.punct _).seq fun _ => (Ensures.punct _).seq fun _ => .pure
      (readsAs_place (l := .newObject) rfl ⟨_, rfl, hname⟩)

theorem arrayLiteral_ensures (h : expr.Ensures ReadsAsExpr) :
    (arrayLiteral expr).Ensures ReadsAsExpr :=
  Ensures.here.seq fun _ => (Ensures.between (Ensures.sepBy h (Ensures.punct _))).bind fun _ hes =>
    .pure (readsAs_place (l := .arrayLit) rfl hes)

theorem parenthesis_ensures (h : expr.Ensures ReadsAsExpr) :
    (parenthesis expr).Ensures ReadsAsExpr :=
  Ensures.here.seq fun _ => (Ensures.between h).bind fun _ hinner => .pure
    (readsAs_place (l := .paren) rfl ⟨_, rfl, hinner⟩)

theorem variableRef_ensures : variableRef.Ensures ReadsAsExpr :=
  Ensures.here.seq fun _ => Ensures.ident.bind fun _ hname => .pure
    (readsAs_place (l := .varRef) rfl ⟨_, rfl, hname⟩)

theorem atom_ensures (h : expr.Ensures ReadsAsExpr) : (atom expr).Ensures ReadsAsExpr := by
  refine Ensures.choice fun q hq => ?_
  simp only [List.mem_cons, List.not_mem_nil, or_false] at hq
  rcases hq with rfl | rfl | rfl | rfl | rfl | rfl | rfl | rfl
  · exact integerLiteral_ensures
  · exact booleanLiteral_ensures
  · exact thisExpr_ensures
  · exact newArray_ensures h
  · exact newObject_ensures
  · exact arrayLiteral_ensures h
  · exact parenthesis_ensures h
  · exact variableRef_ensures

/-- All expressions of a selector read as expressions. -/
def Selector.Reads : Selector → Prop
  | index e => e.ReadsAsExpr
  | length => True
  | call _ arguments => ∀ a ∈ arguments, a.ReadsAsExpr

theorem Selector.apply_readsAs {s : Selector} (hs : s.Reads) {operand : RawNode}
    (h : operand.ReadsAsExpr) : (apply operand s).ReadsAsExpr := by
  cases s with
  | index e => exact readsAs_place (l := .arrayAccess) rfl ⟨_, _, rfl, h, hs⟩
  | length => exact readsAs_place (l := .arrayLength) rfl ⟨_, rfl, h⟩
  | call method arguments => exact readsAs_place (l := .call) rfl ⟨_, _, rfl, h, hs⟩

theorem member_ensures (h : expr.Ensures ReadsAsExpr) : (member expr).Ensures Selector.Reads := by
  have harguments : (optional (between .openParen .closeParen
      (sepBy expr (punct .comma)))).Ensures fun as? => ∀ as ∈ as?, ∀ a ∈ as, a.ReadsAsExpr :=
    Ensures.optional (Ensures.between (Ensures.sepBy h (Ensures.punct _)))
  have hread := (Ensures.punct .dot).seq fun _ =>
    (Ensures.ident.mono fun _ _ => trivial).seq fun name => harguments.bind fun as? has =>
      Ensures.pure (a := (name, as?)) (P := fun p => ∀ as ∈ p.2, ∀ a ∈ as, a.ReadsAsExpr) has
  refine Ensures.tryMap hread fun (name, as?) s has hs => ?_
  cases as? with
  | some as =>
    cases hs
    exact has as rfl
  | none =>
    simp only at hs
    split at hs <;> cases hs
    exact trivial

theorem selection_ensures (h : expr.Ensures ReadsAsExpr) :
    (selection expr).Ensures ReadsAsExpr := by
  have hsubscript : (subscript expr).Ensures Selector.Reads :=
    (Ensures.between h).bind fun _ he => .pure he
  refine (atom_ensures h).bind fun operand hoperand => ?_
  refine (Ensures.many (Ensures.orElse hsubscript (member_ensures h))).bind fun ss hss => .pure ?_
  induction ss generalizing operand with
  | nil => exact hoperand
  | cons s ss ih =>
    obtain ⟨hs, hss⟩ := List.forall_mem_cons.mp hss
    exact ih _ (Selector.apply_readsAs hs hoperand) hss

theorem negation_ensures (h : expr.Ensures ReadsAsExpr) : (negation expr).Ensures ReadsAsExpr := by
  have hbang : (do let start ← here; punct .bang; return start : Parser Nat).Ensures
      fun _ => True :=
    Ensures.here.seq fun _ => (Ensures.punct _).seq fun _ => .pure trivial
  refine ((Ensures.many hbang).mono fun _ _ => trivial).seq fun starts => ?_
  refine (selection_ensures h).bind fun operand hoperand => .pure ?_
  induction starts with
  | nil => exact hoperand
  | cons start starts ih => exact readsAs_place (l := .unary) rfl ⟨_, rfl, ih⟩

/-! ### Binary operators -/

theorem operator_ensures (p : Punct) : (operator p).Ensures fun _ => True :=
  (Ensures.punct p).seq fun _ => .pure trivial

theorem leftGrouped_ensures {operand : Parser RawNode} {op : Parser String}
    (h : operand.Ensures ReadsAsExpr) (hop : op.Ensures fun _ => True) :
    (leftGrouped operand op).Ensures ReadsAsExpr := by
  have hpair : (do let o ← op; let e ← operand; return (o, e) : Parser _).Ensures
      fun r => r.2.ReadsAsExpr :=
    hop.seq fun _ => h.bind fun _ he => .pure he
  refine h.bind fun first hfirst => ?_
  refine (Ensures.many hpair).bind fun rest hrest => .pure ?_
  induction rest generalizing first with
  | nil => exact hfirst
  | cons r rs ih =>
    obtain ⟨hr, hrs⟩ := List.forall_mem_cons.mp hrest
    exact ih _ (readsAs_place (l := .binary) rfl ⟨_, _, rfl, hfirst, hr⟩) hrs

theorem disjunction_ensures (h : expr.Ensures ReadsAsExpr) :
    (disjunction expr).Ensures ReadsAsExpr := by
  have hproduct := leftGrouped_ensures (negation_ensures h)
    (Ensures.orElse (operator_ensures .star) (operator_ensures .slash))
  have hsum := leftGrouped_ensures hproduct
    (Ensures.orElse (operator_ensures .plus) (operator_ensures .minus))
  have hcompare : (choice (operator .lessEqual)
      [operator .greaterEqual, operator .less, operator .greater]).Ensures fun _ => True := by
    refine Ensures.choice fun q hq => ?_
    simp only [List.mem_cons, List.not_mem_nil, or_false] at hq
    rcases hq with rfl | rfl | rfl | rfl <;> exact operator_ensures _
  have hequality := leftGrouped_ensures (leftGrouped_ensures hsum hcompare)
    (Ensures.orElse (operator_ensures .equal) (operator_ensures .notEqual))
  exact leftGrouped_ensures (leftGrouped_ensures hequality (operator_ensures .andAnd))
    (operator_ensures .orOr)

theorem expression_ensures : expression.Ensures ReadsAsExpr :=
  Ensures.tie fun _ h => disjunction_ensures h

/-! ## Statements -/

theorem condition_ensures : condition.Ensures ReadsAsExpr := Ensures.between expression_ensures

theorem block_ensures (h : stmt.Ensures ReadsAsStmt) : (block stmt).Ensures ReadsAsStmt :=
  Ensures.here.seq fun _ => (Ensures.between (Ensures.many h)).bind fun _ hss => .pure
    (readsAs_place (l := .block) rfl hss)

theorem ifStmt_ensures (h : stmt.Ensures ReadsAsStmt) : (ifStmt stmt).Ensures ReadsAsStmt := by
  have helse : (optional (do keyword .elseKw; stmt)).Ensures fun e? => ∀ e ∈ e?, e.ReadsAsStmt :=
    Ensures.optional ((Ensures.keyword _).seq fun _ => h)
  refine Ensures.here.seq fun p => (Ensures.keyword _).seq fun _ => ?_
  refine condition_ensures.bind fun c hc => h.bind fun t ht => helse.bind fun e? he => .pure ?_
  exact readsAs_place (l := .ifElse) rfl ⟨_, _, _, rfl, hc, ht, he⟩

theorem whileStmt_ensures (h : stmt.Ensures ReadsAsStmt) : (whileStmt stmt).Ensures ReadsAsStmt :=
  Ensures.here.seq fun _ => (Ensures.keyword _).seq fun _ => condition_ensures.bind fun _ hc =>
    h.bind fun _ hb => .pure (readsAs_place (l := .whileLoop) rfl ⟨_, _, rfl, hc, hb⟩)

theorem returnStmt_ensures : returnStmt.Ensures ReadsAsStmt := by
  refine Ensures.here.seq fun p => (Ensures.keyword _).seq fun _ => ?_
  refine (Ensures.optional expression_ensures).bind fun v? hv => (Ensures.punct _).seq fun _ => ?_
  exact .pure (readsAs_place (l := .returning) rfl ⟨_, rfl, hv⟩)

theorem assignStmt_ensures : assignStmt.Ensures ReadsAsStmt :=
  Ensures.here.seq fun _ => (Ensures.ident.mono fun _ _ => trivial).seq fun _ =>
    (Ensures.punct _).seq fun _ => expression_ensures.bind fun _ hv =>
      (Ensures.punct _).seq fun _ => .pure
        (readsAs_place (l := .assign) rfl ⟨_, rfl, hv⟩)

theorem arrayAssignStmt_ensures : arrayAssignStmt.Ensures ReadsAsStmt :=
  Ensures.here.seq fun _ => (Ensures.ident.mono fun _ _ => trivial).seq fun _ =>
    (Ensures.between expression_ensures).bind fun _ hi => (Ensures.punct _).seq fun _ =>
      expression_ensures.bind fun _ hv => (Ensures.punct _).seq fun _ => .pure
        (readsAs_place (l := .arrayAssign) rfl ⟨_, _, rfl, hi, hv⟩)

theorem exprStmt_ensures : exprStmt.Ensures ReadsAsStmt :=
  Ensures.here.seq fun _ => expression_ensures.bind fun _ he => (Ensures.punct _).seq fun _ =>
    .pure (readsAs_place (l := .exprStmt) rfl ⟨_, rfl, he⟩)

theorem statement_ensures : statement.Ensures ReadsAsStmt := by
  refine Ensures.tie fun stmt h => Ensures.choice fun q hq => ?_
  simp only [List.mem_cons, List.not_mem_nil, or_false] at hq
  rcases hq with rfl | rfl | rfl | rfl | rfl | rfl | rfl
  · exact block_ensures h
  · exact ifStmt_ensures h
  · exact whileStmt_ensures h
  · exact returnStmt_ensures
  · exact assignStmt_ensures
  · exact arrayAssignStmt_ensures
  · exact exprStmt_ensures

/-! ## Declarations -/

theorem writtenType_ensures : writtenType.Ensures fun raw => isTypeKind raw.kind = true := by
  have hbasic : basicType.Ensures fun raw => isTypeKind raw.kind = true := by
    refine Ensures.satisfy fun t raw _ ht => ?_
    split at ht <;> cases ht <;> rfl
  have hclass : classType.Ensures fun raw => isTypeKind raw.kind = true :=
    (Ensures.ident.mono fun _ _ => trivial).seq fun _ => .pure rfl
  have harray : arraySuffix.Ensures fun kind => isTypeKind kind = true :=
    (Ensures.punct _).seq fun _ => (Ensures.punct _).seq fun _ => .pure rfl
  have hrow : varargsSuffix.Ensures fun kind => isTypeKind kind = true :=
    (Ensures.punct _).seq fun _ => .pure rfl
  refine (Ensures.orElse hbasic hclass).bind fun element helement => ?_
  refine (Ensures.optional (Ensures.orElse harray hrow)).bind fun suffix hsuffix => .pure ?_
  cases suffix with
  | none => exact helement
  | some kind => exact hsuffix kind rfl

theorem varDecl_ensures : varDecl.Ensures (ReadsAs fun _ => True) :=
  Ensures.here.seq fun _ => (writtenType_ensures.mono fun _ _ => trivial).seq fun _ =>
    (Ensures.ident.mono fun _ _ => trivial).seq fun _ => (Ensures.punct _).seq fun _ => .pure
      (readsAs_place (l := .varDecl) trivial trivial)

theorem param_ensures : param.Ensures (ReadsAs fun _ => True) :=
  Ensures.here.seq fun _ => (writtenType_ensures.mono fun _ _ => trivial).seq fun _ =>
    (Ensures.ident.mono fun _ _ => trivial).seq fun _ => .pure
      (readsAs_place (l := .param) trivial trivial)

theorem importDecl_ensures : importDecl.Ensures (ReadsAs fun _ => True) :=
  Ensures.here.seq fun _ => (Ensures.keyword _).seq fun _ =>
    ((Ensures.sepBy1 Ensures.ident (Ensures.punct _)).mono fun _ _ => trivial).seq fun _ =>
      (Ensures.punct _).seq fun _ => .pure
        (readsAs_place (l := .importDecl) trivial trivial)

theorem methodDecl_ensures : methodDecl.Ensures (ReadsAs fun _ => True) := by
  have hflag (k : Keyword) : (optional (keyword k)).Ensures fun _ => True :=
    (Ensures.optional (Ensures.keyword k)).mono fun _ _ => trivial
  have hstmt : statement.Ensures (ReadsAs fun _ => True) :=
    statement_ensures.mono fun _ h => Yields.mono h fun _ hn => ⟨hn.1, trivial⟩
  refine Ensures.here.seq fun _ => (hflag _).seq fun _ => (hflag _).seq fun _ => ?_
  refine writtenType_ensures.bind fun type htype => ?_
  refine (Ensures.ident.mono fun _ _ => trivial).seq fun _ => ?_
  refine (Ensures.between (Ensures.sepBy param_ensures (Ensures.punct _))).bind fun ps hps => ?_
  refine (Ensures.between (Ensures.many (Ensures.orElse varDecl_ensures hstmt))).bind
    fun body hbody => .pure (readsAs_place (l := .methodDecl) trivial fun r hr => ?_)
  simp only [List.cons_append, List.mem_cons, List.mem_append] at hr
  rcases hr with rfl | hr | hr
  · exact .inl htype
  · exact .inr (hps r hr)
  · exact .inr (hbody r hr)

theorem classDecl_ensures : classDecl.Ensures (ReadsAs fun _ => True) := by
  have hext : (optional (do keyword .extendsKw; ident)).Ensures fun _ => True :=
    (Ensures.optional ((Ensures.keyword _).seq fun _ => Ensures.ident)).mono fun _ _ => trivial
  refine Ensures.here.seq fun _ => (Ensures.keyword _).seq fun _ => ?_
  refine Ensures.ident.bind fun name hname => hext.seq fun superclass => ?_
  refine (Ensures.between (Ensures.many (Ensures.orElse varDecl_ensures
    methodDecl_ensures))).bind fun members hmembers => .pure ?_
  exact readsAs_place (l := .classDecl) trivial ⟨⟨_, _, hname, rfl⟩, hmembers⟩

theorem program_ensures : program.Ensures (ReadsAs (· = .program)) :=
  Ensures.here.seq fun _ =>
    (Ensures.many (Ensures.orElse importDecl_ensures classDecl_ensures)).bind fun _ hitems =>
      Ensures.endOfInput.seq fun _ => .pure (readsAs_place (l := .program) rfl hitems)

end Grammar

/-! ## Programs -/

/-- **The tree of a text is a well-formed program.** The tree has been read with offsets, and has the
same sorts and parts when positions are put in their place. -/
theorem wellFormed_of_parse {source : String} {raw : RawNode} {root : Node}
    (hparse : parse source = .ok raw) (hread : Node.ofRaw? raw = .ok root) :
    root.WellFormed ∧ root.label = .program := by
  obtain ⟨tree, hinput, rfl⟩ := exists_parseInput_of_parse hparse
  obtain ⟨r, hrun⟩ := run_program_of_parseInput hinput
  obtain ⟨alt, hprogram⟩ := Parser.run_eq_some_iff.mp hrun
  have htree : tree.ReadsAs (· = .program) :=
    (Grammar.program_ensures _ _ _ _ (Input.ofPieces_isSpelled _ _) hprogram).1
  -- what is read of the tree with offsets
  have hunplaced := Node.ofRaw?_unplaced (tree.resolvePositions (.ofText source.toList))
  rw [RawNode.unplaced_resolvePositions, Node.ofRaw?_unplaced, hread] at hunplaced
  cases hroot : Node.ofRaw? tree with
  | error e =>
    rw [hroot] at hunplaced
    cases hunplaced
  | ok root' =>
    rw [hroot] at hunplaced
    have hsame : root'.unplaced = root.unplaced := Except.ok.inj hunplaced
    have hwellFormed : root'.WellFormed ∧ root'.label = .program := by
      have hroot' := htree 0
      change Prod.fst <$> (Node.read tree).run 0 = _ at hroot
      cases hrun : (Node.read tree).run 0 with
      | error e =>
        rw [hrun] at hroot
        cases hroot
      | ok r =>
        rw [hrun] at hroot hroot'
        cases hroot
        exact hroot'
    rwa [← Node.wellFormed_unplaced_iff, ← Node.label_unplaced, hsame, Node.label_unplaced,
      Node.wellFormed_unplaced_iff] at hwellFormed

end MiniJava
