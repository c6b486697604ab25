import MiniJava.Proofs.Grammar.Completeness.Statement

/-!
# The whole grammar is accepted

Every program in grammar shape is read back from the tokens that spell it. A variable is told from a
statement by what stands behind the name at the front of the statement, and from a method by what
stands behind its own name, so a choice that tries the variable first never takes a wrong turn.

Main result: `exists_parseInput_eq_ok`.
-/

namespace MiniJava

open MiniJava.Parser RawNode
open Token (enclosed commaSeparated dotted BeginsWith)

/-! ## First tokens -/

/-- The tokens that a member of a class begins with. -/
def Token.startsMember (t : Token) : Bool :=
  t.startsType || t ∈ [.keyword .publicKw, .keyword .staticKw]

theorem RawNode.IsVarDecl.beginsWith {n : RawNode} (h : n.IsVarDecl) :
    BeginsWith Token.startsType n.tokens := by
  cases h with
  | mk name h => exact h.beginsWith.append _

/-- Behind the first modifier of a method comes the second, or the type. -/
theorem static_beginsWith {t : RawNode} (ht : t.IsType) (isStatic : Bool) (us : List Token) :
    BeginsWith (fun t => t.startsType || t == .keyword .staticKw)
      ((if isStatic then [.keyword .staticKw] else []) ++ (t.tokens ++ us)) := by
  cases isStatic with
  | false => exact (ht.beginsWith.mono fun t h => by rw [h, Bool.true_or]).append us
  | true => exact ⟨_, _, rfl, rfl⟩

theorem RawNode.IsMethod.beginsWith {m : RawNode} (h : m.IsMethod) :
    BeginsWith Token.startsMember m.tokens := by
  cases h with
  | mk isPublic isStatic name htype hparams hbody =>
    rw [htype.tokens_methodDecl hparams hbody]
    cases isPublic with
    | true => exact ⟨_, _, rfl, rfl⟩
    | false =>
      refine (static_beginsWith htype isStatic _).mono fun t h => ?_
      rcases Bool.or_eq_true_iff.mp h with h | h
      · rw [Token.startsMember, h, Bool.true_or]
      · rw [beq_iff_eq.mp h]
        rfl

namespace Grammar

variable {n : Nat} {us : List Token}

theorem writtenType_starts : writtenType.Starts Token.startsType := by
  refine .of_reads writtenType_reads ?_
  rintro _ t ⟨rfl, ht⟩
  exact ht.beginsWith

theorem varDecl_starts : varDecl.Starts Token.startsType :=
  .here_bind fun _ => writtenType_starts.bind _

theorem param_starts : param.Starts Token.startsType :=
  .here_bind fun _ => writtenType_starts.bind _

/-! ## Types -/

/-- What may stand behind the element of a type. -/
abbrev typeSuffix : Parser String := arraySuffix <|> varargsSuffix

theorem basicType_starts : basicType.Starts (· matches .keyword _) := by
  refine .satisfy fun t n h => ?_
  cases t with
  | keyword => rfl
  | _ => cases h

theorem flatType_accepts {t : RawNode} (ht : t.IsFlatType) :
    (basicType <|> classType).Accepts n t.tokens us (·.unplaced = t) := by
  cases ht with
  | int => exact .orElse_left (.satisfy rfl rfl)
  | boolean => exact .orElse_left (.satisfy rfl rfl)
  | string => exact .orElse_left (.satisfy rfl rfl)
  | void => exact .orElse_left (.satisfy rfl rfl)
  | named name =>
    exact .orElse_right (basicType_starts.refuses_cons rfl us) (.ident_bind (.pure rfl))

theorem writtenType_accepts {t : RawNode} (ht : t.IsType) (hus : typeSuffix.Refuses us) :
    writtenType.Accepts n t.tokens us (·.unplaced = t) := by
  cases ht with
  | flat h =>
    have hnone : (optional typeSuffix).Accepts n [] us (· = none) := .optional_none hus rfl
    refine .bind_last (flatType_accepts h) ?_
    rintro t rfl
    refine .bind_last hnone ?_
    rintro _ rfl
    exact .pure rfl
  | array h =>
    have hsome : (optional typeSuffix).Accepts n [.punct .openBracket, .punct .closeBracket] us
        (· = some "ArrayType") :=
      .optional_some (.orElse_left (.token_bind (.token_bind (.pure rfl))))
    refine .bind (flatType_accepts h) ?_
    rintro t rfl
    refine .bind_last hsome ?_
    rintro _ rfl
    exact .pure (unplaced_place "ArrayType" none [] (by simp) [t])
  | varargs h =>
    have harray : arraySuffix.Starts (· == .punct .openBracket) := .bind (.token rfl) _
    have hsome : (optional typeSuffix).Accepts n [.punct .ellipsis] us (· = some "VarArgsType") :=
      .optional_some (.orElse_right (harray.refuses_cons rfl us) (.token_bind (.pure rfl)))
    refine .bind (flatType_accepts h) ?_
    rintro t rfl
    refine .bind_last hsome ?_
    rintro _ rfl
    exact .pure (unplaced_place "VarArgsType" none [] (by simp) [t])

theorem typeSuffix_starts :
    typeSuffix.Starts (· ∈ [.punct .openBracket, .punct .ellipsis]) :=
  .orElse (.bind (.token rfl) _) (.bind (.token rfl) _)

/-- A name follows every type in a declaration. -/
theorem typeSuffix_refuses_ident (name : String) (us : List Token) :
    typeSuffix.Refuses (.ident name :: us) :=
  typeSuffix_starts.refuses_cons rfl us

/-- An index behind a name does not make a type of it. -/
theorem typeSuffix_refuses_index {i : RawNode} (hi : i.IsExpr) (us : List Token) :
    typeSuffix.Refuses (enclosed .openBracket .closeBracket i.tokens ++ us) := by
  have hvarargs : varargsSuffix.Starts (· == .punct .ellipsis) := .bind (.token rfl) _
  refine .orElse (.token_bind (.bind (.token ?_) _)) (hvarargs.refuses_cons rfl _)
  rintro t ht rfl
  cases ((hi.beginsWith.append _).append us).of_mem_head? ht

/-! ## Variables and parameters -/

theorem varDecl_accepts {d : RawNode} (hd : d.IsVarDecl) :
    varDecl.Accepts n d.tokens us (·.unplaced = d) := by
  cases hd with
  | mk name ht =>
    refine .here_bind fun p => .bind (writtenType_accepts ht (typeSuffix_refuses_ident name _)) ?_
    rintro t rfl
    exact .ident_bind (.token_bind (.pure (unplaced_place_eq (l := .varDecl) rfl rfl)))

theorem param_accepts {d : RawNode} (hd : d.IsParam) :
    param.Accepts n d.tokens us (·.unplaced = d) := by
  cases hd with
  | mk name ht =>
    refine .here_bind fun p => .bind (writtenType_accepts ht (typeSuffix_refuses_ident name _)) ?_
    rintro t rfl
    exact .ident_bind (.pure (unplaced_place_eq (l := .param) rfl rfl))

/-- A name is no declaration if neither the rest of a type nor a name stands behind it. -/
theorem varDecl_refuses (name : String) (hsuffix : typeSuffix.Refuses us)
    (hident : ∀ t ∈ us.head?, t.isIdent = false) : varDecl.Refuses (.ident name :: us) := by
  have htype (n : Nat) : writtenType.Accepts n [.ident name] us fun _ => True :=
    (writtenType_accepts (.flat (.named name)) hsuffix).mono fun _ _ => trivial
  refine .here_bind fun p => ?_
  rw [← List.singleton_append]
  refine Accepts.refuses_bind htype fun t _ => ?_
  exact .bind (ident_starts.refuses hident) _

theorem varDecl_refuses_afterName (name : String) {ts : List Token} (h : AfterName ts)
    (us : List Token) : varDecl.Refuses (.ident name :: (ts ++ .punct .semicolon :: us)) := by
  cases h with
  | nil => exact varDecl_refuses name (typeSuffix_starts.refuses_cons rfl us) (by rintro _ ⟨⟩; rfl)
  | operator op =>
    refine varDecl_refuses name (typeSuffix_starts.refuses_cons ?_ _) (by rintro _ ⟨⟩; rfl)
    cases op <;> rfl
  | dot => exact varDecl_refuses name (typeSuffix_starts.refuses_cons rfl _) (by rintro _ ⟨⟩; rfl)
  | index hi =>
    rw [List.append_assoc]
    exact varDecl_refuses name (typeSuffix_refuses_index hi _) (by rintro _ ⟨⟩; rfl)

/-- No statement begins with a declaration. -/
theorem varDecl_refuses_stmt {s : RawNode} (hs : s.IsStmt) (us : List Token) :
    varDecl.Refuses (s.tokens ++ us) := by
  cases hs with
  | block =>
    rw [tokens_block]
    exact varDecl_starts.refuses_cons rfl _
  | ifThen | ifElse | whileLoop => exact varDecl_starts.refuses_cons rfl _
  | returning =>
    rw [tokens_returning]
    exact varDecl_starts.refuses_cons rfl _
  | assign target he =>
    exact varDecl_refuses target (typeSuffix_starts.refuses_cons rfl _) (by rintro _ ⟨⟩; rfl)
  | arrayAssign target hi he =>
    rw [tokens_arrayAssign, List.cons_append, List.append_assoc]
    exact varDecl_refuses target (typeSuffix_refuses_index hi _) (by rintro _ ⟨⟩; rfl)
  | exprStmt he =>
    rw [tokens_exprStmt, List.append_assoc, List.singleton_append]
    rcases he.name_or_beginsWith with ⟨name, ts, hts, hafter⟩ | hother
    · rw [hts]
      exact varDecl_refuses_afterName name hafter us
    · refine varDecl_starts.refuses fun t ht => ?_
      have := (hother.append _).of_mem_head? ht
      revert this
      cases t with
      | ident => simp [Token.isIdent]
      | keyword k => cases k <;> decide
      | _ => simp [Token.startsType]

/-! ## Methods -/

/-- A reserved word that may be missing. -/
theorem flag_accepts (k : Keyword) (b : Bool) (hus : ∀ t ∈ us.head?, t ≠ .keyword k) :
    (optional (Parser.keyword k)).Accepts n (if b then [.keyword k] else []) us
      (·.isSome = b) := by
  cases b with
  | false => exact .optional_none (.token hus) rfl
  | true => exact .optional_some (.satisfy (a := ()) (by simp) rfl)

theorem params_accepts {ps : List RawNode} (hps : ∀ d ∈ ps, d.IsParam) (us : List Token) :
    (between .openParen .closeParen (sepBy param (punct .comma))).Accepts n
      (enclosed .openParen .closeParen (commaSeparated (ps.map tokens))) us
      (fun as => as.map unplaced = ps) := by
  refine .between (.sepBy (G := fun _ => True) ?_ (fun _ => trivial) trivial ?_ ?_)
  · exact fun d hd vs _ => param_accepts (hps d hd)
  · rintro _ ⟨⟩
    decide
  · exact param_starts.refuses_cons rfl us

theorem bodyItem_accepts {d : RawNode} (hd : d.IsVarDecl ∨ d.IsStmt)
    (hus : us.head? ≠ some (.keyword .elseKw)) :
    (varDecl <|> statement).Accepts n d.tokens us (·.unplaced = d) := by
  rcases hd with hd | hd
  · exact .orElse_left (varDecl_accepts hd)
  · exact .orElse_right (varDecl_refuses_stmt hd us) (statement_accepts n hd fun _ => hus)

theorem body_accepts {ds : List RawNode} (hds : ∀ d ∈ ds, d.IsVarDecl ∨ d.IsStmt)
    (us : List Token) :
    (between .openBrace .closeBrace (many (varDecl <|> statement))).Accepts n
      (enclosed .openBrace .closeBrace (ds.flatMap tokens)) us
      (fun as => as.map unplaced = ds) := by
  -- A statement may end with an open `if`, and what comes next must not be its `else`.
  have hbegins (d : RawNode) (hd : d ∈ ds) :
      BeginsWith (· != .keyword .elseKw) d.tokens := by
    rcases hds d hd with hd | hd
    · refine hd.beginsWith.mono fun t ht => bne_iff_ne.mpr ?_
      rintro rfl
      cases ht
    · refine hd.beginsWith.mono fun t ht => bne_iff_ne.mpr ?_
      rintro rfl
      cases ht
  refine .between (.many (G := fun vs => vs.head? ≠ some (.keyword .elseKw)) ?_ ?_ ?_ ?_ ?_)
  · exact fun d hd vs hvs => bodyItem_accepts (hds d hd) hvs
  · exact fun d hd => (hbegins d hd).ne_nil
  · intro d hd vs helse
    exact absurd (((hbegins d hd).append vs).of_mem_head? helse) (by decide)
  · rw [List.head?_cons]
    decide
  · exact .orElse (varDecl_starts.refuses_cons rfl us) (statement_starts.refuses_cons rfl us)

theorem methodDecl_accepts {m : RawNode} (hm : m.IsMethod) :
    methodDecl.Accepts n m.tokens us (·.unplaced = m) := by
  cases hm with
  | mk isPublic isStatic name htype hparams hbody =>
    rw [htype.tokens_methodDecl hparams hbody]
    refine .here_bind fun p => .bind (flag_accepts .publicKw isPublic ?_) ?_
    · rw [List.append_assoc, List.append_assoc]
      rintro t ht rfl
      cases (static_beginsWith htype isStatic _).of_mem_head? ht
    rintro u rfl
    refine .bind (flag_accepts .staticKw isStatic ?_) ?_
    · rw [List.append_assoc]
      rintro t ht rfl
      cases (htype.beginsWith.append _).of_mem_head? ht
    rintro v rfl
    refine .bind (writtenType_accepts htype (typeSuffix_refuses_ident name _)) ?_
    rintro t rfl
    refine .ident_bind (.bind (params_accepts hparams _) ?_)
    rintro ps rfl
    refine .bind_last (body_accepts hbody us) ?_
    rintro ds rfl
    exact .pure (unplaced_place_eq (l := .methodDecl) rfl (by simp))

theorem methodDecl_starts : methodDecl.Starts Token.startsMember := by
  refine .of_reads methodDecl_reads ?_
  rintro _ m ⟨rfl, hm⟩
  exact hm.beginsWith

/-- The arguments behind its name tell a method from a variable. -/
theorem varDecl_refuses_method {m : RawNode} (hm : m.IsMethod) (us : List Token) :
    varDecl.Refuses (m.tokens ++ us) := by
  cases hm with
  | @mk type params body isPublic isStatic name htype hparams hbody =>
    rw [htype.tokens_methodDecl hparams hbody]
    cases isPublic with
    | true => exact varDecl_starts.refuses_cons rfl _
    | false =>
      cases isStatic with
      | true => exact varDecl_starts.refuses_cons rfl _
      | false =>
        simp only [Bool.false_eq_true, if_false, List.nil_append, List.append_assoc,
          List.cons_append]
        refine .here_bind fun p => Accepts.refuses_bind (Q := fun _ => True) ?_ fun t _ => ?_
        · exact fun n => (writtenType_accepts htype (typeSuffix_refuses_ident name _)).mono
            fun _ _ => trivial
        · refine .ident_bind (.bind (.token ?_) _)
          rintro _ ⟨⟩
          decide

/-! ## Classes -/

theorem member_accepts {d : RawNode} (hd : d.IsVarDecl ∨ d.IsMethod) :
    (varDecl <|> methodDecl).Accepts n d.tokens us (·.unplaced = d) := by
  rcases hd with hd | hd
  · exact .orElse_left (varDecl_accepts hd)
  · exact .orElse_right (varDecl_refuses_method hd us) (methodDecl_accepts hd)

theorem members_accepts {ds : List RawNode} (hds : ∀ d ∈ ds, d.IsVarDecl ∨ d.IsMethod)
    (us : List Token) :
    (between .openBrace .closeBrace (many (varDecl <|> methodDecl))).Accepts n
      (enclosed .openBrace .closeBrace (ds.flatMap tokens)) us
      (fun as => as.map unplaced = ds) := by
  refine .between (.many (G := fun _ => True) ?_ ?_ (fun _ _ _ => trivial) trivial ?_)
  · exact fun d hd vs _ => member_accepts (hds d hd)
  · exact fun d hd => (hds d hd).elim (·.beginsWith.ne_nil) (·.beginsWith.ne_nil)
  · exact .orElse (varDecl_starts.refuses_cons rfl us) (methodDecl_starts.refuses_cons rfl us)

theorem superclass_accepts (superclass : Option String) (us : List Token) :
    (optional (do Parser.keyword .extendsKw; ident)).Accepts n (writeSuperclass superclass)
      (.punct .openBrace :: us) (· = superclass) := by
  cases superclass with
  | none => exact .optional_none (.bind (.token (by rintro _ ⟨⟩; decide)) _) rfl
  | some name => exact .optional_some (.token_bind (.satisfy (a := name) rfl rfl))

theorem classDecl_accepts {c : RawNode} (hc : c.IsClass) :
    classDecl.Accepts n c.tokens us (·.unplaced = c) := by
  cases hc with
  | mk name superclass h =>
    rw [tokens_classDecl]
    refine .here_bind fun p => .token_bind (.ident_bind
      (.bind (superclass_accepts superclass _) ?_))
    rintro superclass rfl
    refine .bind_last (members_accepts h us) ?_
    rintro ds rfl
    refine .pure (unplaced_place_eq (l := .classDecl) ?_ rfl)
    cases superclass <;> rfl

theorem classDecl_starts : classDecl.Starts (· == .keyword .classKw) :=
  .here_bind fun _ => (Starts.token rfl).bind _

/-! ## Imports -/

/-- The names of a path are those between its dots. -/
theorem path_accepts (path : String) (us : List Token) :
    (sepBy1 ident (punct .dot)).Accepts n (dotted path) (.punct .semicolon :: us)
      (String.intercalate "." · = path) := by
  obtain ⟨name, names, hnames⟩ := List.exists_cons_of_ne_nil (List.splitOn_ne_nil '.' path.toList)
  have hrow : (sepBy1 ident (punct .dot)).Accepts n (dotted path) (.punct .semicolon :: us)
      (fun as => as.map String.toList = name :: names) := by
    rw [dotted, hnames]
    refine .sepBy1 (G := fun _ => True) ?_ (fun _ => trivial) trivial (by rintro _ ⟨⟩; decide)
    exact fun name _ vs _ => .satisfy rfl String.toList_ofList
  refine hrow.mono fun as has => String.toList_inj.mp ?_
  rw [String.toList_intercalate, has, ← hnames]
  exact List.intercalate_splitOn '.'

theorem importDecl_accepts {i : RawNode} (hi : i.IsImport) :
    importDecl.Accepts n i.tokens us (·.unplaced = i) := by
  cases hi with
  | mk path =>
    refine .here_bind fun p => .token_bind (.bind (path_accepts path us) ?_)
    rintro names rfl
    exact .token_bind (.pure (unplaced_place_eq (l := .importDecl) rfl rfl))

theorem importDecl_starts : importDecl.Starts (· == .keyword .importKw) :=
  .here_bind fun _ => (Starts.token rfl).bind _

/-! ## Programs -/

theorem item_accepts {i : RawNode} (hi : i.IsImport ∨ i.IsClass) :
    (importDecl <|> classDecl).Accepts n i.tokens us (·.unplaced = i) := by
  rcases hi with hi | hi
  · exact .orElse_left (importDecl_accepts hi)
  · refine .orElse_right ?_ (classDecl_accepts hi)
    cases hi with
    | mk =>
      rw [tokens_classDecl]
      exact importDecl_starts.refuses_cons rfl _

theorem program_accepts {t : RawNode} (ht : t.IsProgram) :
    program.Accepts n t.tokens [] (·.unplaced = t) := by
  cases ht with
  | @mk items h =>
    have hmany : (many (importDecl <|> classDecl)).Accepts n (items.flatMap tokens) []
        (fun as => as.map unplaced = items) := by
      refine .many (G := fun _ => True) ?_ ?_ (fun _ _ _ => trivial) trivial ?_
      · exact fun i hi vs _ => item_accepts (h i hi)
      · intro i hi
        rcases h i hi with hi | hi
        · cases hi
          exact List.cons_ne_nil _ _
        · cases hi
          rw [tokens_classDecl]
          exact List.cons_ne_nil _ _
      · exact .orElse (importDecl_starts.refuses (by simp)) (classDecl_starts.refuses (by simp))
    rw [tokens_program]
    refine .here_bind fun p => .bind_last hmany ?_
    rintro items rfl
    refine .bind_last (Q := fun _ => True) (.endOfInput trivial) fun _ _ => ?_
    exact .pure (unplaced_place_eq (l := .program) rfl rfl)

end Grammar

open Grammar (typeNode)

theorem parseInput_eq_ok {s r : Input} {n : RawNode} (h : Grammar.program.run s = some (n, r)) :
    parseInput s = .ok n := by
  obtain ⟨alt, hrun⟩ := run_eq_some_iff.mp h
  rw [parseInput, hrun]

/-- **The whole grammar is accepted.** A row of tokens that spells a program in grammar shape is read
as that program, up to the positions. -/
theorem exists_parseInput_eq_ok {s : Input} {t : RawNode} (ht : t.unplaced.IsProgram)
    (hs : s.tokens = t.tokens) : ∃ n, parseInput s = .ok n ∧ n.unplaced = t.unplaced := by
  obtain ⟨n, r, hrun, -, hn⟩ :=
    Grammar.program_accepts (n := s.left + 1) ht s (Nat.lt_succ_self _)
      (by rw [hs, List.append_nil, tokens_unplaced])
  exact ⟨n, parseInput_eq_ok hrun, hn⟩

theorem exists_parseInput_eq_ok_declaration :
    let s : Input := .ofPieces 0
      (pieces 0 "class A { int f(boolean b) { A[] x; if (b) x[0] = 1; else y = 3 - 2; } }".toList)
    let declared := plain .varDecl [("name", "x")]
      [typeNode "ArrayType" [] [typeNode "ClassType" [("value", "A")] []]]
    let choice := plain .ifElse [] [plain .varRef [("value", "b")] [],
      plain .arrayAssign [("value", "x")]
        [plain .intLit [("value", "0")] [], plain .intLit [("value", "1")] []],
      plain .assign [("value", "y")] [plain .binary [("op", "-")]
        [plain .intLit [("value", "3")] [], plain .intLit [("value", "2")] []]]]
    let t := plain .program [] [plain .classDecl [("name", "A")] [plain .methodDecl
      [("methodName", "f"), ("isPublic", "false"), ("isStatic", "false")]
      [typeNode "IntType" [] [], plain .param [("name", "b")] [typeNode "BooleanType" [] []],
        declared, choice]]]
    t.unplaced.IsProgram ∧ s.tokens = t.tokens ∧
      ∃ n, parseInput s = .ok n ∧ n.unplaced = t.unplaced := by
  intro s declared choice t
  have hdeclared : declared.IsVarDecl := .mk "x" (.array (.named "A"))
  have hchoice : choice.IsStmt :=
    .ifElse (.varRef "b") (.arrayAssign "x" (.intLit "0") (.intLit "1")) rfl
      (.assign "y" (.binary .sub (.intLit "3") (.intLit "2") (by decide) (by decide)))
  have hparams : ∀ p ∈ [plain .param [("name", "b")] [typeNode "BooleanType" [] []]], p.IsParam :=
    List.forall_mem_singleton.mpr (.mk "b" (.flat .boolean))
  have hbody : ∀ n ∈ [declared, choice], n.IsVarDecl ∨ n.IsStmt :=
    List.forall_mem_cons.mpr ⟨.inl hdeclared, List.forall_mem_singleton.mpr (.inr hchoice)⟩
  have hmethod := IsMethod.mk false false "f" (.flat .int) hparams hbody
  have hplain : t.unplaced = t := rfl
  have ht : t.unplaced.IsProgram := by
    rw [hplain]
    exact .mk (List.forall_mem_singleton.mpr
      (.inr (.mk "A" none (List.forall_mem_singleton.mpr (.inr hmethod)))))
  have hs : s.tokens = t.tokens := by decide +kernel
  exact ⟨ht, hs, exists_parseInput_eq_ok ht hs⟩

end MiniJava
