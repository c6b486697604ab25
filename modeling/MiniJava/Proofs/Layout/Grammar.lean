import MiniJava.Proofs.Grammar.Operands
import MiniJava.Proofs.Layout.Agree

/-!
# The grammar does not look at places

Every production reads from two inputs with the same tokens two trees that differ in their positions
only, or is stuck at the same token with the same expectations. The productions come in the order of
the grammar, each with the parsers for its parts on both sides.

The main result is `parse_layout`: what a text parses to, or why it does not parse, depends on its
tokens.
-/

namespace MiniJava

open MiniJava.Parser RawNode

namespace RawNode

/-- Nodes of one kind with the same attributes differ in positions only if their children do. -/
theorem unplaced_place_congr {l : Label} {p q : Option String} {as : List (String × String)}
    {ns ms : List RawNode} (has : as.all (isLasting ·.1) = true)
    (h : ns.map unplaced = ms.map unplaced) :
    (place l.name p as ns).unplaced = (place l.name q as ms).unplaced := by
  have has := List.all_eq_true.mp has
  rw [unplaced_place _ p as has, unplaced_place _ q as has, h]

end RawNode

namespace Grammar

variable {expr expr' stmt stmt' : Parser RawNode}

/-! ## Expressions -/

theorem integerLiteral_agree : Agree unplaced integerLiteral integerLiteral :=
  .here_bind fun _ _ => (Agree.satisfy _ _).same_bind fun _ => .pure
    (unplaced_place_congr (l := .intLit) rfl rfl)

theorem booleanLiteral_agree : Agree unplaced booleanLiteral booleanLiteral :=
  .here_bind fun _ _ => (Agree.satisfy _ _).same_bind fun _ => .pure
    (unplaced_place_congr (l := .boolLit) rfl rfl)

theorem thisExpr_agree : Agree unplaced thisExpr thisExpr :=
  .here_bind fun _ _ => (Agree.keyword _).same_bind fun _ => .pure
    (unplaced_place_congr (l := .this) rfl rfl)

theorem newArray_agree (h : Agree unplaced expr expr') :
    Agree unplaced (newArray expr) (newArray expr') :=
  .here_bind fun _ _ => (Agree.keyword _).same_bind fun _ => (Agree.satisfy _ _).same_bind fun _ =>
    (Agree.between _ _ h).bind fun _ _ hsize => .pure
      (unplaced_place_congr (l := .newArray) rfl (by simp [hsize]))

theorem newObject_agree : Agree unplaced newObject newObject :=
  .here_bind fun _ _ => (Agree.keyword _).same_bind fun _ => Agree.ident.same_bind fun _ =>
    (Agree.punct _).same_bind fun _ => (Agree.punct _).same_bind fun _ => .pure
      (unplaced_place_congr (l := .newObject) rfl rfl)

theorem arrayLiteral_agree (h : Agree unplaced expr expr') :
    Agree unplaced (arrayLiteral expr) (arrayLiteral expr') :=
  .here_bind fun _ _ => (Agree.between _ _ (Agree.sepBy h (Agree.punct _))).bind fun _ _ hes =>
    .pure (unplaced_place_congr (l := .arrayLit) rfl hes)

theorem parenthesis_agree (h : Agree unplaced expr expr') :
    Agree unplaced (parenthesis expr) (parenthesis expr') :=
  .here_bind fun _ _ => (Agree.between _ _ h).bind fun _ _ hinner => .pure
    (unplaced_place_congr (l := .paren) rfl (by simp [hinner]))

theorem variableRef_agree : Agree unplaced variableRef variableRef :=
  .here_bind fun _ _ => Agree.ident.same_bind fun _ => .pure
    (unplaced_place_congr (l := .varRef) rfl rfl)

theorem atom_agree (h : Agree unplaced expr expr') : Agree unplaced (atom expr) (atom expr') :=
  Agree.choice integerLiteral_agree (.cons booleanLiteral_agree (.cons thisExpr_agree
    (.cons (newArray_agree h) (.cons newObject_agree (.cons (arrayLiteral_agree h)
      (.cons (parenthesis_agree h) (.cons variableRef_agree .nil)))))))

/-! ### Selectors -/

theorem subscript_agree (h : Agree unplaced expr expr') :
    Agree Selector.unplaced (subscript expr) (subscript expr') :=
  (Agree.between _ _ h).bind fun _ _ he => .pure (congrArg Selector.index he)

theorem member_agree (h : Agree unplaced expr expr') :
    Agree Selector.unplaced (member expr) (member expr') := by
  have harguments := Agree.optional
    (Agree.between .openParen .closeParen (Agree.sepBy h (Agree.punct .comma)))
  have hread := (Agree.punct .dot).same_bind fun _ => Agree.ident.same_bind fun name =>
    harguments.bind fun as? bs? has =>
      Agree.pure (f := fun r => (r.1, r.2.map (List.map unplaced))) (a := (name, as?))
        (b := (name, bs?)) (congrArg (Prod.mk name) has)
  refine Agree.tryMap hread fun (name, as?) (name', bs?) hab => ?_
  obtain ⟨rfl, hargs⟩ := Prod.mk.inj hab
  cases as? <;> cases bs? <;> simp at hargs
  · rfl
  · exact congrArg Except.ok (congrArg (Selector.call name) hargs)

theorem selection_agree (h : Agree unplaced expr expr') :
    Agree unplaced (selection expr) (selection expr') := by
  refine (atom_agree h).bind fun n n' hn => ?_
  refine (Agree.many (Agree.orElse (subscript_agree h) (member_agree h))).bind
    fun ss ss' hss => .pure ?_
  rw [unplaced_foldl_apply, unplaced_foldl_apply, hn, hss]

/-! ### Operators -/

theorem negation_agree (h : Agree unplaced expr expr') :
    Agree unplaced (negation expr) (negation expr') := by
  have hbang : Agree (fun _ => ()) (do let start ← here; punct .bang; return start : Parser Nat)
      (do let start ← here; punct .bang; return start) :=
    .here_bind fun _ _ => (Agree.punct _).same_bind fun _ => .pure rfl
  refine (Agree.many hbang).bind fun ps qs hps => ?_
  refine (selection_agree h).bind fun n n' hn => .pure ?_
  have hlength : ps.length = qs.length := by simpa using congrArg List.length hps
  rw [unplaced_foldr_unary, unplaced_foldr_unary, hn, hlength]

theorem operator_agree (p : Punct) : Agree id (operator p) (operator p) :=
  (Agree.punct p).same_bind fun _ => .pure rfl

theorem leftGrouped_agree {operand operand' : Parser RawNode} {op : Parser String}
    (h : Agree unplaced operand operand') (hop : Agree id op op) :
    Agree unplaced (leftGrouped operand op) (leftGrouped operand' op) := by
  have hpair : Agree (fun r => (r.1, r.2.unplaced))
      (do let o ← op; let e ← operand; return (o, e) : Parser (String × RawNode))
      (do let o ← op; let e ← operand'; return (o, e)) :=
    hop.same_bind fun o => h.bind fun _ _ he => .pure (congrArg (Prod.mk o) he)
  refine h.bind fun n n' hn => ?_
  refine (Agree.many hpair).bind fun rs rs' hrs => .pure ?_
  rw [unplaced_foldl_binary, unplaced_foldl_binary, hn, hrs]

theorem disjunction_agree (h : Agree unplaced expr expr') :
    Agree unplaced (disjunction expr) (disjunction expr') := by
  have hproduct := leftGrouped_agree (negation_agree h)
    (Agree.orElse (operator_agree .star) (operator_agree .slash))
  have hsum := leftGrouped_agree hproduct
    (Agree.orElse (operator_agree .plus) (operator_agree .minus))
  have hcompare : Agree id (choice (operator .lessEqual)
      [operator .greaterEqual, operator .less, operator .greater]) _ :=
    Agree.choice (operator_agree _) (.cons (operator_agree _) (.cons (operator_agree _)
      (.cons (operator_agree _) .nil)))
  have hequality := leftGrouped_agree (leftGrouped_agree hsum hcompare)
    (Agree.orElse (operator_agree .equal) (operator_agree .notEqual))
  exact leftGrouped_agree (leftGrouped_agree hequality (operator_agree .andAnd))
    (operator_agree .orOr)

theorem expression_agree : Agree unplaced expression expression :=
  Agree.tie fun _ _ h => disjunction_agree h

/-! ## Statements -/

theorem condition_agree : Agree unplaced condition condition :=
  Agree.between _ _ expression_agree

theorem block_agree (h : Agree unplaced stmt stmt') :
    Agree unplaced (block stmt) (block stmt') :=
  .here_bind fun _ _ => (Agree.between _ _ (Agree.many h)).bind fun _ _ hss => .pure
    (unplaced_place_congr (l := .block) rfl hss)

/-- A part that may be missing is among the children if it is there. -/
theorem map_unplaced_toList {n? n?' : Option RawNode}
    (h : n?.map unplaced = n?'.map unplaced) :
    n?.toList.map unplaced = n?'.toList.map unplaced := by
  cases n? <;> cases n?' <;> simp_all

theorem ifStmt_agree (h : Agree unplaced stmt stmt') :
    Agree unplaced (ifStmt stmt) (ifStmt stmt') := by
  have helse : Agree (Option.map unplaced) (optional (do keyword .elseKw; stmt))
      (optional (do keyword .elseKw; stmt')) :=
    Agree.optional ((Agree.keyword _).same_bind fun _ => h)
  refine .here_bind fun _ _ => (Agree.keyword _).same_bind fun _ => ?_
  refine condition_agree.bind fun _ _ hc => h.bind fun _ _ ht => helse.bind fun _ _ he => .pure ?_
  refine unplaced_place_congr (l := .ifElse) rfl ?_
  rw [List.map_cons, List.map_cons, List.map_cons, List.map_cons, hc, ht, map_unplaced_toList he]

theorem whileStmt_agree (h : Agree unplaced stmt stmt') :
    Agree unplaced (whileStmt stmt) (whileStmt stmt') :=
  .here_bind fun _ _ => (Agree.keyword _).same_bind fun _ => condition_agree.bind fun _ _ hc =>
    h.bind fun _ _ hb => .pure
      (unplaced_place_congr (l := .whileLoop) rfl (by simp [hc, hb]))

theorem returnStmt_agree : Agree unplaced returnStmt returnStmt :=
  .here_bind fun _ _ => (Agree.keyword _).same_bind fun _ =>
    (Agree.optional expression_agree).bind fun _ _ hv => (Agree.punct _).same_bind fun _ => .pure
      (unplaced_place_congr (l := .returning) rfl (map_unplaced_toList hv))

theorem assignStmt_agree : Agree unplaced assignStmt assignStmt :=
  .here_bind fun _ _ => Agree.ident.same_bind fun _ => (Agree.punct _).same_bind fun _ =>
    expression_agree.bind fun _ _ hv => (Agree.punct _).same_bind fun _ => .pure
      (unplaced_place_congr (l := .assign) rfl (by simp [hv]))

theorem arrayAssignStmt_agree : Agree unplaced arrayAssignStmt arrayAssignStmt :=
  .here_bind fun _ _ => Agree.ident.same_bind fun _ =>
    (Agree.between _ _ expression_agree).bind fun _ _ hi => (Agree.punct _).same_bind fun _ =>
      expression_agree.bind fun _ _ hv => (Agree.punct _).same_bind fun _ => .pure
        (unplaced_place_congr (l := .arrayAssign) rfl (by simp [hi, hv]))

theorem exprStmt_agree : Agree unplaced exprStmt exprStmt :=
  .here_bind fun _ _ => expression_agree.bind fun _ _ he => (Agree.punct _).same_bind fun _ => .pure
    (unplaced_place_congr (l := .exprStmt) rfl (by simp [he]))

theorem statement_agree : Agree unplaced statement statement :=
  Agree.tie fun _ _ h => Agree.choice (block_agree h) (.cons (ifStmt_agree h)
    (.cons (whileStmt_agree h) (.cons returnStmt_agree (.cons assignStmt_agree
      (.cons arrayAssignStmt_agree (.cons exprStmt_agree .nil))))))

/-! ## Declarations -/

/-- A written type has no position at all, so its text alone decides what is read. -/
theorem writtenType_agree : Agree id writtenType writtenType := by
  have hclass : Agree id classType classType := Agree.ident.same_bind fun _ => .pure rfl
  have harray : Agree id arraySuffix arraySuffix :=
    (Agree.punct _).same_bind fun _ => (Agree.punct _).same_bind fun _ => .pure rfl
  have hrow : Agree id varargsSuffix varargsSuffix := (Agree.punct _).same_bind fun _ => .pure rfl
  refine (Agree.orElse (Agree.satisfy _ _) hclass).same_bind fun element => ?_
  exact (Agree.optional_same (Agree.orElse harray hrow)).same_bind fun suffix => .pure rfl

theorem importDecl_agree : Agree unplaced importDecl importDecl := by
  refine .here_bind fun _ _ => (Agree.keyword _).same_bind fun _ => ?_
  refine (Agree.sepBy1 Agree.ident (Agree.punct _)).bind fun names names' hnames =>
    (Agree.punct _).same_bind fun _ => .pure ?_
  obtain rfl : names = names' := by simpa using hnames
  exact unplaced_place_congr (l := .importDecl) rfl rfl

theorem varDecl_agree : Agree unplaced varDecl varDecl :=
  .here_bind fun _ _ => writtenType_agree.same_bind fun _ => Agree.ident.same_bind fun _ =>
    (Agree.punct _).same_bind fun _ => .pure (unplaced_place_congr (l := .varDecl) rfl rfl)

theorem param_agree : Agree unplaced param param :=
  .here_bind fun _ _ => writtenType_agree.same_bind fun _ => Agree.ident.same_bind fun _ => .pure
    (unplaced_place_congr (l := .param) rfl rfl)

theorem methodDecl_agree : Agree unplaced methodDecl methodDecl := by
  refine .here_bind fun _ _ => (Agree.optional_same (Agree.keyword _)).same_bind fun _ =>
    (Agree.optional_same (Agree.keyword _)).same_bind fun _ => ?_
  refine writtenType_agree.same_bind fun type => Agree.ident.same_bind fun name => ?_
  refine (Agree.between _ _ (Agree.sepBy param_agree (Agree.punct _))).bind fun _ _ hps => ?_
  refine (Agree.between _ _ (Agree.many (Agree.orElse varDecl_agree statement_agree))).bind
    fun _ _ hbody => .pure (unplaced_place_congr (l := .methodDecl) rfl ?_)
  simp [hps, hbody]

theorem classDecl_agree : Agree unplaced classDecl classDecl := by
  have hext : Agree id (optional (do keyword .extendsKw; ident))
      (optional (do keyword .extendsKw; ident)) :=
    Agree.optional_same ((Agree.keyword _).same_bind fun _ => Agree.ident)
  refine .here_bind fun _ _ => (Agree.keyword _).same_bind fun _ => Agree.ident.same_bind
    fun name => hext.same_bind fun superclass => ?_
  refine (Agree.between _ _ (Agree.many (Agree.orElse varDecl_agree methodDecl_agree))).bind
    fun _ _ hmembers => .pure (unplaced_place_congr (l := .classDecl) ?_ hmembers)
  cases superclass <;> rfl

theorem program_agree : Agree unplaced program program :=
  .here_bind fun _ _ =>
    (Agree.many (Agree.orElse importDecl_agree classDecl_agree)).bind fun _ _ hitems =>
      Agree.endOfInput.same_bind fun _ => .pure
        (unplaced_place_congr (l := .program) rfl hitems)

end Grammar

end MiniJava
