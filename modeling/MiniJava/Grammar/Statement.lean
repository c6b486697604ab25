import MiniJava.Grammar.Expression

/-!
# The grammar of statements

The rules of `stmt_parser`: blocks, `if`, `while`, `return`, assignments to a variable and to an
element of an array, and expressions that stand for themselves. An `else` belongs to the nearest
`if`.
-/

namespace MiniJava.Grammar

open MiniJava.Parser

/-- An expression in parentheses that are no node. -/
def condition : Parser RawNode := between .openParen .closeParen expression

/-- Statements in braces. -/
def block (stmt : Parser RawNode) : Parser RawNode := do
  let start ← here
  let statements ← between .openBrace .closeBrace (many stmt)
  return .atOffset start "BlockStmt" [] statements

/-- A choice: `if (c) s` with or without `else s` -/
def ifStmt (stmt : Parser RawNode) : Parser RawNode := do
  let start ← here
  keyword .ifKw
  let c ← condition
  let thenBranch ← stmt
  let elseBranch ← optional (do keyword .elseKw; stmt)
  return .atOffset start "IfStmt" [] (c :: thenBranch :: elseBranch.toList)

/-- A loop: `while (c) s` -/
def whileStmt (stmt : Parser RawNode) : Parser RawNode := do
  let start ← here
  keyword .whileKw
  let c ← condition
  let body ← stmt
  return .atOffset start "WhileStmt" [] [c, body]

/-- A return with or without a value. -/
def returnStmt : Parser RawNode := do
  let start ← here
  keyword .returnKw
  let value ← optional expression
  punct .semicolon
  return .atOffset start "ReturnStmt" [] value.toList

/-- An assignment to a name: `x = e;` -/
def assignStmt : Parser RawNode := do
  let start ← here
  let target ← ident
  punct .assign
  let value ← expression
  punct .semicolon
  return .atOffset start "AssignStmt" [("value", target)] [value]

/-- An assignment to an element: `a[i] = e;` -/
def arrayAssignStmt : Parser RawNode := do
  let start ← here
  let target ← ident
  let index ← between .openBracket .closeBracket expression
  punct .assign
  let value ← expression
  punct .semicolon
  return .atOffset start "ArrayAssignStmt" [("value", target)] [index, value]

/-- An expression by itself: `e;` -/
def exprStmt : Parser RawNode := do
  let start ← here
  let e ← expression
  punct .semicolon
  return .atOffset start "ExprStmt" [] [e]

/-- A statement, whose own parts are read by `stmt`. -/
def statementOf (stmt : Parser RawNode) : Parser RawNode :=
  choice (block stmt)
    [ifStmt stmt, whileStmt stmt, returnStmt, assignStmt, arrayAssignStmt, exprStmt]

/-- A statement. -/
def statement : Parser RawNode := tie statementOf

end MiniJava.Grammar
