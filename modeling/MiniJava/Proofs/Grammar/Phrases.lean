import MiniJava.Proofs.Grammar.Written

/-!
# The phrases of the language

Which raw trees without positions are in grammar shape: types, expressions, statements, declarations
and programs, each an inductive predicate with one constructor for each form. Brackets are nodes of
their own, so a tree must not ask for others when it is written:

* the left operand of an operator binds at least as tightly as the operator and the right operand
  more tightly (`RawNode.strength`);
* the operand of `!` is a negation or stronger, and in front of a selector stands an atom or another
  selection;
* in front of an `else` no `if` is left open (`RawNode.endsOpen`).

`tokens_binary` and its likes say how each form is written.
-/

namespace MiniJava

/-- How tightly an operator binds. -/
def BinaryOp.strength : BinaryOp → Nat
  | or => 1
  | and => 2
  | eq | ne => 3
  | lt | gt | le | ge => 4
  | add | sub => 5
  | mul | div => 6

theorem BinaryOp.mem_all (op : BinaryOp) : op ∈ BinaryOp.all := by
  cases op <;> decide

instance (P : BinaryOp → Prop) [DecidablePred P] : Decidable (∀ op, P op) :=
  decidable_of_iff (∀ op ∈ BinaryOp.all, P op) ⟨fun h op => h op op.mem_all, fun h op _ => h op⟩

theorem BinaryOp.strength_pos : ∀ op : BinaryOp, 0 < op.strength := by decide

theorem BinaryOp.strength_le : ∀ op : BinaryOp, op.strength ≤ 6 := by decide

namespace RawNode

open Token Grammar

/-- How tightly the parts of an expression hang together: operators, negations, selections, atoms. -/
def strength (n : RawNode) : Nat :=
  match Label.ofName? n.kind with
  | some .binary => ((BinaryOp.ofSymbol? (n.word "op")).map BinaryOp.strength).getD 0
  | some .unary => 7
  | some .arrayAccess | some .arrayLength | some .call => 8
  | _ => 9

/-- An `else` behind the statement would become part of it. -/
def endsOpen : RawNode → Bool
  | ⟨kind, _, children⟩ =>
    match Label.ofName? kind, children with
    | some .ifElse, [_, _] => true
    | some .ifElse, [_, _, elseBranch] => elseBranch.endsOpen
    | some .whileLoop, [_, body] => body.endsOpen
    | _, _ => false

/-! ## The forms -/

/-- A written type that is no array. -/
inductive IsFlatType : RawNode → Prop
  | int : IsFlatType (typeNode "IntType" [] [])
  | boolean : IsFlatType (typeNode "BooleanType" [] [])
  | string : IsFlatType (typeNode "StringType" [] [])
  | void : IsFlatType (typeNode "VoidType" [] [])
  | named (name : String) : IsFlatType (typeNode "ClassType" [("value", name)] [])

/-- A written type. -/
inductive IsType : RawNode → Prop
  | flat {t : RawNode} (h : IsFlatType t) : IsType t
  | array {t : RawNode} (h : IsFlatType t) : IsType (typeNode "ArrayType" [] [t])
  | varargs {t : RawNode} (h : IsFlatType t) : IsType (typeNode "VarArgsType" [] [t])

/-- An expression. -/
inductive IsExpr : RawNode → Prop
  | intLit (digits : String) : IsExpr (plain .intLit [("value", digits)] [])
  | boolLit (b : Bool) : IsExpr (plain .boolLit [("value", flagText b)] [])
  | this : IsExpr (plain .this [] [])
  | varRef (name : String) : IsExpr (plain .varRef [("value", name)] [])
  | newObject (name : String) : IsExpr (plain .newObject [("value", name)] [])
  | newArray {element : String} {size : RawNode} (h : element = "int" ∨ element = "boolean")
    (hsize : IsExpr size) : IsExpr (plain .newArray [("value", element)] [size])
  | arrayLit {elements : List RawNode} (h : ∀ e ∈ elements, IsExpr e) :
    IsExpr (plain .arrayLit [] elements)
  | paren {inner : RawNode} (h : IsExpr inner) : IsExpr (plain .paren [] [inner])
  | arrayAccess {array index : RawNode} (harray : IsExpr array) (hstrong : 8 ≤ array.strength)
    (hindex : IsExpr index) : IsExpr (plain .arrayAccess [] [array, index])
  | arrayLength {array : RawNode} (harray : IsExpr array) (hstrong : 8 ≤ array.strength) :
    IsExpr (plain .arrayLength [("value", "length")] [array])
  | call {receiver : RawNode} {arguments : List RawNode} (method : String)
    (hreceiver : IsExpr receiver) (hstrong : 8 ≤ receiver.strength)
    (harguments : ∀ a ∈ arguments, IsExpr a) :
    IsExpr (plain .call [("value", method)] (receiver :: arguments))
  | unary {operand : RawNode} (h : IsExpr operand) (hstrong : 7 ≤ operand.strength) :
    IsExpr (plain .unary [("op", "!")] [operand])
  | binary {left right : RawNode} (op : BinaryOp) (hleft : IsExpr left) (hright : IsExpr right)
    (hstrong : op.strength ≤ left.strength) (hstronger : op.strength < right.strength) :
    IsExpr (plain .binary [("op", op.symbol)] [left, right])

/-- A statement. -/
inductive IsStmt : RawNode → Prop
  | block {statements : List RawNode} (h : ∀ s ∈ statements, IsStmt s) :
    IsStmt (plain .block [] statements)
  | ifThen {condition thenBranch : RawNode} (hcondition : condition.IsExpr)
    (hthen : IsStmt thenBranch) : IsStmt (plain .ifElse [] [condition, thenBranch])
  | ifElse {condition thenBranch elseBranch : RawNode} (hcondition : condition.IsExpr)
    (hthen : IsStmt thenBranch) (hclosed : thenBranch.endsOpen = false)
    (helse : IsStmt elseBranch) : IsStmt (plain .ifElse [] [condition, thenBranch, elseBranch])
  | whileLoop {condition body : RawNode} (hcondition : condition.IsExpr) (hbody : IsStmt body) :
    IsStmt (plain .whileLoop [] [condition, body])
  | returning (value : Option RawNode) (h : ∀ e ∈ value, IsExpr e) :
    IsStmt (plain .returning [] value.toList)
  | assign {value : RawNode} (target : String) (h : value.IsExpr) :
    IsStmt (plain .assign [("value", target)] [value])
  | arrayAssign {index value : RawNode} (target : String) (hindex : index.IsExpr)
    (hvalue : value.IsExpr) : IsStmt (plain .arrayAssign [("value", target)] [index, value])
  | exprStmt {e : RawNode} (h : e.IsExpr) : IsStmt (plain .exprStmt [] [e])

/-- A field or a local variable. -/
inductive IsVarDecl : RawNode → Prop
  | mk {type : RawNode} (name : String) (h : type.IsType) :
    IsVarDecl (plain .varDecl [("name", name)] [type])

/-- A parameter. -/
inductive IsParam : RawNode → Prop
  | mk {type : RawNode} (name : String) (h : type.IsType) :
    IsParam (plain .param [("name", name)] [type])

/-- A method. -/
inductive IsMethod : RawNode → Prop
  | mk {type : RawNode} {params body : List RawNode} (isPublic isStatic : Bool) (name : String)
    (htype : type.IsType) (hparams : ∀ p ∈ params, p.IsParam)
    (hbody : ∀ n ∈ body, n.IsVarDecl ∨ n.IsStmt) :
    IsMethod (plain .methodDecl [("methodName", name), ("isPublic", flagText isPublic),
      ("isStatic", flagText isStatic)] (type :: params ++ body))

/-- An import. -/
inductive IsImport : RawNode → Prop
  | mk (path : String) : IsImport (plain .importDecl [("value", path)] [])

/-- A class. -/
inductive IsClass : RawNode → Prop
  | mk {members : List RawNode} (name : String) (superclass : Option String)
    (h : ∀ n ∈ members, n.IsVarDecl ∨ n.IsMethod) :
    IsClass (plain .classDecl (("name", name) :: superclass.toList.map fun s => ("ext", s)) members)

/-- A program: any number of imports and classes. -/
inductive IsProgram : RawNode → Prop
  | mk {items : List RawNode} (h : ∀ n ∈ items, n.IsImport ∨ n.IsClass) :
    IsProgram (plain .program [] items)

/-- An expression whose parts hang together at least as tightly as `k` says. -/
def IsOperand (k : Nat) (n : RawNode) : Prop := n.IsExpr ∧ k ≤ n.strength

theorem IsOperand.mono {j k : Nat} {n : RawNode} (h : n.IsOperand k) (hjk : j ≤ k) :
    n.IsOperand j :=
  ⟨h.1, Nat.le_trans hjk h.2⟩

@[simp] theorem strength_binary (op : BinaryOp) (ns : List RawNode) :
    (plain .binary [("op", op.symbol)] ns).strength = op.strength := by
  cases op <;> rfl

/-- Only operations bind as weakly as operators do. -/
theorem six_lt_strength {l : Label} (h : l ≠ .binary) (as : List (String × String))
    (ns : List RawNode) : 6 < (plain l as ns).strength := by
  cases l with
  | binary => exact absurd rfl h
  | unary => exact Nat.le_refl 7
  | arrayAccess | arrayLength | call => exact (by decide : 6 < 8)
  | _ => exact (by decide : 6 < 9)

theorem IsExpr.strength_pos {n : RawNode} (h : n.IsExpr) : 0 < n.strength := by
  cases h with
  | binary op =>
    rw [strength_binary]
    exact op.strength_pos
  | _ => exact Nat.lt_trans (by decide) (six_lt_strength (by decide) _ _)

@[simp] theorem endsOpen_ifThen (c t : RawNode) : (plain .ifElse [] [c, t]).endsOpen = true := rfl

@[simp] theorem endsOpen_ifElse (c t e : RawNode) :
    (plain .ifElse [] [c, t, e]).endsOpen = e.endsOpen := rfl

@[simp] theorem endsOpen_whileLoop (c b : RawNode) :
    (plain .whileLoop [] [c, b]).endsOpen = b.endsOpen := rfl

theorem IsType.isParam {t : RawNode} (h : t.IsType) : t.isParam = false := by
  cases h with
  | flat h => cases h <;> rfl
  | array h | varargs h => rfl

theorem IsParam.isParam {n : RawNode} (h : n.IsParam) : n.isParam = true := by
  cases h
  rfl

theorem IsVarDecl.isParam {n : RawNode} (h : n.IsVarDecl) : n.isParam = false := by
  cases h
  rfl

theorem IsStmt.isParam {n : RawNode} (h : n.IsStmt) : n.isParam = false := by
  cases h <;> rfl

/-! ## How the forms are written -/

section

variable (a b c t : RawNode) (ns : List RawNode) (name : String)

@[simp] theorem tokens_intLit : (plain .intLit [("value", name)] []).tokens = [.integer name] := rfl

@[simp] theorem tokens_boolLit (v : Bool) :
    (plain .boolLit [("value", flagText v)] []).tokens =
      [.keyword (if v then .trueKw else .falseKw)] := by
  cases v <;> rfl

@[simp] theorem tokens_this : (plain .this [] []).tokens = [.keyword .thisKw] := rfl

@[simp] theorem tokens_varRef : (plain .varRef [("value", name)] []).tokens = [.ident name] := rfl

@[simp] theorem tokens_newObject : (plain .newObject [("value", name)] []).tokens =
    [.keyword .newKw, .ident name, .punct .openParen, .punct .closeParen] := rfl

@[simp] theorem tokens_newArray : (plain .newArray [("value", name)] [a]).tokens =
    .keyword .newKw :: .ofName name :: enclosed .openBracket .closeBracket a.tokens := rfl

@[simp] theorem tokens_arrayLit : (plain .arrayLit [] ns).tokens =
    enclosed .openBracket .closeBracket (commaSeparated (ns.map tokens)) := by
  rw [← tokensAll_eq_map]
  rfl

@[simp] theorem tokens_paren :
    (plain .paren [] [a]).tokens = enclosed .openParen .closeParen a.tokens := rfl

@[simp] theorem tokens_arrayAccess : (plain .arrayAccess [] [a, b]).tokens =
    a.tokens ++ enclosed .openBracket .closeBracket b.tokens := rfl

@[simp] theorem tokens_arrayLength : (plain .arrayLength [("value", name)] [a]).tokens =
    a.tokens ++ [.punct .dot, .ident name] := rfl

@[simp] theorem tokens_call : (plain .call [("value", name)] (a :: ns)).tokens =
    a.tokens ++ .punct .dot :: .ident name ::
      enclosed .openParen .closeParen (commaSeparated (ns.map tokens)) := by
  rw [← tokensAll_eq_map]
  rfl

@[simp] theorem tokens_unary :
    (plain .unary [("op", "!")] [a]).tokens = .punct .bang :: a.tokens := rfl

@[simp] theorem tokens_binary (op : BinaryOp) : (plain .binary [("op", op.symbol)] [a, b]).tokens =
    a.tokens ++ .punct op.punct :: b.tokens := by
  cases op <;> rfl

@[simp] theorem tokens_block : (plain .block [] ns).tokens =
    enclosed .openBrace .closeBrace (ns.flatMap tokens) := by
  rw [List.flatMap, ← tokensAll_eq_map]
  rfl

@[simp] theorem tokens_ifThen : (plain .ifElse [] [a, b]).tokens =
    .keyword .ifKw :: (enclosed .openParen .closeParen a.tokens ++ b.tokens) := rfl

@[simp] theorem tokens_ifElse : (plain .ifElse [] [a, b, c]).tokens =
    .keyword .ifKw :: (enclosed .openParen .closeParen a.tokens ++
      (b.tokens ++ .keyword .elseKw :: c.tokens)) := rfl

@[simp] theorem tokens_whileLoop : (plain .whileLoop [] [a, b]).tokens =
    .keyword .whileKw :: (enclosed .openParen .closeParen a.tokens ++ b.tokens) := rfl

@[simp] theorem tokens_returning : (plain .returning [] ns).tokens =
    .keyword .returnKw :: (ns.flatMap tokens ++ [.punct .semicolon]) := by
  rw [List.flatMap, ← tokensAll_eq_map]
  rfl

@[simp] theorem tokens_assign : (plain .assign [("value", name)] [a]).tokens =
    .ident name :: .punct .assign :: (a.tokens ++ [.punct .semicolon]) := rfl

@[simp] theorem tokens_arrayAssign : (plain .arrayAssign [("value", name)] [a, b]).tokens =
    .ident name :: (enclosed .openBracket .closeBracket a.tokens ++
      .punct .assign :: (b.tokens ++ [.punct .semicolon])) := rfl

@[simp] theorem tokens_exprStmt :
    (plain .exprStmt [] [a]).tokens = a.tokens ++ [.punct .semicolon] := rfl

@[simp] theorem tokens_arrayType :
    (typeNode "ArrayType" [] [t]).tokens = t.tokens ++ [.punct .openBracket, .punct .closeBracket] :=
  rfl

@[simp] theorem tokens_varargsType :
    (typeNode "VarArgsType" [] [t]).tokens = t.tokens ++ [.punct .ellipsis] := rfl

@[simp] theorem tokens_varDecl : (plain .varDecl [("name", name)] [t]).tokens =
    t.tokens ++ [.ident name, .punct .semicolon] := rfl

@[simp] theorem tokens_param : (plain .param [("name", name)] [t]).tokens =
    t.tokens ++ [.ident name] := rfl

@[simp] theorem tokens_importDecl : (plain .importDecl [("value", name)] []).tokens =
    .keyword .importKw :: (dotted name ++ [.punct .semicolon]) := rfl

/-- How a class is written with rows for its members. -/
@[simp] theorem write_classDecl (superclass : Option String) (rows : List (List Token)) :
    (plain .classDecl (("name", name) :: superclass.toList.map fun s => ("ext", s)) ns).write rows =
      .keyword .classKw :: .ident name ::
        (writeSuperclass superclass ++ enclosed .openBrace .closeBrace rows.flatten) := by
  have hwrite (as : List (String × String)) : (plain .classDecl as ns).write rows =
      .keyword .classKw :: .ident ((plain .classDecl as ns).word "name") ::
        (writeSuperclass ((plain .classDecl as ns).get? "ext") ++
          enclosed .openBrace .closeBrace rows.flatten) := rfl
  rw [hwrite]
  cases superclass with
  | none => rfl
  | some s => simp [word, get?, plain, Attributes.ofList]

@[simp] theorem tokens_classDecl (superclass : Option String) :
    (plain .classDecl (("name", name) :: superclass.toList.map fun s => ("ext", s)) ns).tokens =
      .keyword .classKw :: .ident name ::
        (writeSuperclass superclass ++ enclosed .openBrace .closeBrace (ns.flatMap tokens)) := by
  rw [tokens_eq, write_classDecl, List.flatMap]
  rfl

@[simp] theorem tokens_program : (plain .program [] ns).tokens = ns.flatMap tokens := by
  rw [List.flatMap, ← tokensAll_eq_map]
  rfl

/-- The parameters of a method are the only parameters among its children. -/
theorem IsType.countP_isParam {type : RawNode} (htype : type.IsType) {params body : List RawNode}
    (hparams : ∀ p ∈ params, p.IsParam) (hbody : ∀ n ∈ body, n.IsVarDecl ∨ n.IsStmt) :
    (type :: params ++ body).countP RawNode.isParam = params.length := by
  have hnone : body.countP RawNode.isParam = 0 := by
    refine List.countP_eq_zero.mpr fun n hn => Bool.eq_false_iff.mp ?_
    rcases hbody n hn with h | h
    · exact h.isParam
    · exact h.isParam
  rw [List.cons_append, List.countP_cons_of_neg (by simp [htype.isParam]), List.countP_append,
    hnone, List.countP_eq_length.mpr (fun p hp => (hparams p hp).isParam), Nat.add_zero]

/-- How a method is written with rows for its type, its parameters and what stands in its body. -/
theorem IsType.write_methodDecl {type : RawNode} (htype : type.IsType) {params body : List RawNode}
    (hparams : ∀ p ∈ params, p.IsParam) (hbody : ∀ n ∈ body, n.IsVarDecl ∨ n.IsStmt)
    (isPublic isStatic : Bool) (name : String) (row : List Token) {rows rows' : List (List Token)}
    (hrows : rows.length = params.length) :
    (plain .methodDecl [("methodName", name), ("isPublic", flagText isPublic),
      ("isStatic", flagText isStatic)] (type :: params ++ body)).write (row :: (rows ++ rows')) =
    (if isPublic then [.keyword .publicKw] else []) ++
      ((if isStatic then [.keyword .staticKw] else []) ++
        (row ++ .ident name ::
          (enclosed .openParen .closeParen (commaSeparated rows) ++
            enclosed .openBrace .closeBrace rows'.flatten))) := by
  have hwrite (as : List (String × String)) (ns : List RawNode) :
      (plain .methodDecl as ns).write (row :: (rows ++ rows')) =
        (plain .methodDecl as ns).writeMethod row (rows ++ rows') := rfl
  have hcount := (htype.countP_isParam hparams hbody).trans hrows.symm
  rw [hwrite, writeMethod_append _ _ hcount]
  cases isPublic <;> cases isStatic <;> simp [word, get?, flag, flagText, plain, Attributes.ofList]

/-- A method is written as its head and its body. -/
theorem IsType.tokens_methodDecl {type : RawNode} (htype : type.IsType)
    {params body : List RawNode} (hparams : ∀ p ∈ params, p.IsParam)
    (hbody : ∀ n ∈ body, n.IsVarDecl ∨ n.IsStmt) (isPublic isStatic : Bool) (name : String) :
    (plain .methodDecl [("methodName", name), ("isPublic", flagText isPublic),
      ("isStatic", flagText isStatic)] (type :: params ++ body)).tokens =
    (if isPublic then [.keyword .publicKw] else []) ++
      ((if isStatic then [.keyword .staticKw] else []) ++
        (type.tokens ++ .ident name ::
          (enclosed .openParen .closeParen (commaSeparated (params.map tokens)) ++
            enclosed .openBrace .closeBrace (body.flatMap tokens)))) := by
  have hchildren (as : List (String × String)) :
      (plain .methodDecl as (type :: params ++ body)).children.map tokens =
        type.tokens :: (params.map tokens ++ body.map tokens) := by simp [plain]
  rw [tokens_eq, hchildren, htype.write_methodDecl hparams hbody _ _ _ _ (List.length_map _),
    List.flatMap]

end

end RawNode

end MiniJava
