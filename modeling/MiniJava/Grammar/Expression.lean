import MiniJava.Grammar.Parser
import MiniJava.Tree.Raw

/-!
# The grammar of expressions

From weak to strong the binary operators are `||`, `&&`, `== !=`, `< > <= >=`, `+ -` and `* /`; all
associate to the left. Stronger are the negation `!` and, behind an atom, the selectors (`Postfix`):
`[i]`, `.length` and `.m(..)`. The rules are those of `expr_parser`.

A node starts at its first token. An operation or a selection is made when its left operand is
there, and takes over where that starts (`RawNode.inheritOffset`).
-/

namespace MiniJava.Grammar

open MiniJava.Parser

/-! ## Atoms -/

/-- An integer. -/
def integerLiteral : Parser RawNode := do
  let start ← here
  let digits ← satisfy [] fun
    | .integer digits => some digits
    | _ => none
  return .atOffset start "IntegerLiteral" [("value", digits)] []

/-- A truth value. -/
def booleanLiteral : Parser RawNode := do
  let start ← here
  let value ← satisfy [] fun
    | .keyword .trueKw => some "true"
    | .keyword .falseKw => some "false"
    | _ => none
  return .atOffset start "BooleanLiteral" [("value", value)] []

/-- The object whose method is running: `this` -/
def thisExpr : Parser RawNode := do
  let start ← here
  keyword .thisKw
  return .atOffset start "ThisExpr" [] []

/-- A new array: `new int[n]` or `new boolean[n]` -/
def newArray (expr : Parser RawNode) : Parser RawNode := do
  let start ← here
  keyword .newKw
  let element ← satisfy [] fun
    | .keyword .intKw => some "int"
    | .keyword .booleanKw => some "boolean"
    | _ => none
  let size ← between .openBracket .closeBracket expr
  return .atOffset start "NewArrayExpr" [("value", element)] [size]

/-- A new object: `new A()` -/
def newObject : Parser RawNode := do
  let start ← here
  keyword .newKw
  let name ← ident
  punct .openParen
  punct .closeParen
  return .atOffset start "NewObjectExpr" [("value", name)] []

/-- An array given by its elements: `[a, b, c]` -/
def arrayLiteral (expr : Parser RawNode) : Parser RawNode := do
  let start ← here
  let elements ← between .openBracket .closeBracket (sepBy expr (punct .comma))
  return .atOffset start "ArrayCreationExpr" [] elements

/-- An expression in parentheses. -/
def parenthesis (expr : Parser RawNode) : Parser RawNode := do
  let start ← here
  let inner ← between .openParen .closeParen expr
  return .atOffset start "ParenthesisExpr" [] [inner]

/-- A name. -/
def variableRef : Parser RawNode := do
  let start ← here
  let name ← ident
  return .atOffset start "VarRef" [("value", name)] []

/-- What an expression can begin with, apart from `!`. -/
def atom (expr : Parser RawNode) : Parser RawNode :=
  choice integerLiteral
    [booleanLiteral, thisExpr, newArray expr, newObject, arrayLiteral expr, parenthesis expr,
      variableRef]

/-! ## Selectors -/

/-- What can follow an operand. -/
inductive Selector where
  | index (e : RawNode)
  | length
  | call (method : String) (arguments : List RawNode)

/-- The node for an operand with a selector. -/
def Selector.apply (operand : RawNode) : Selector → RawNode
  | index e => operand.inheritOffset "ArrayAccessExpr" [] [operand, e]
  | length => operand.inheritOffset "ArrayLengthExpr" [("value", "length")] [operand]
  | call method arguments =>
    operand.inheritOffset "MethodCallExpr" [("value", method)] (operand :: arguments)

/-- A dot with a name, and arguments unless the name is `length`. -/
def member (expr : Parser RawNode) : Parser Selector :=
  tryMap (do
    punct .dot
    let name ← ident
    let arguments ← optional (between .openParen .closeParen (sepBy expr (punct .comma)))
    return (name, arguments))
  fun
    | (name, some arguments) => .ok (.call name arguments)
    | (name, none) => if name = "length" then .ok .length else .error (.argumentsMissing name)

/-- An index in brackets. -/
def subscript (expr : Parser RawNode) : Parser Selector := do
  let e ← between .openBracket .closeBracket expr
  return .index e

/-- An atom with any number of selectors. -/
def selection (expr : Parser RawNode) : Parser RawNode := do
  let operand ← atom expr
  let selectors ← many (subscript expr <|> member expr)
  return selectors.foldl Selector.apply operand

/-! ## Operators -/

/-- Any number of negations of a selection. -/
def negation (expr : Parser RawNode) : Parser RawNode := do
  let starts ← many (do
    let start ← here
    punct .bang
    return start)
  let operand ← selection expr
  return starts.foldr (fun start e => .atOffset start "UnaryExpr" [("op", "!")] [e]) operand

/-- An operator. -/
def operator (p : Punct) : Parser String := do
  punct p
  return p.text

/-- Operands with operators between each two, grouped from the left. -/
def leftGrouped (operand : Parser RawNode) (op : Parser String) : Parser RawNode := do
  let first ← operand
  let rest ← many (do
    let o ← op
    let e ← operand
    return (o, e))
  return rest.foldl (fun l r => l.inheritOffset "BinaryExpr" [("op", r.1)] [l, r.2]) first

/-- Products and quotients. -/
def product (expr : Parser RawNode) : Parser RawNode :=
  leftGrouped (negation expr) (operator .star <|> operator .slash)

/-- Sums and differences. -/
def sum (expr : Parser RawNode) : Parser RawNode :=
  leftGrouped (product expr) (operator .plus <|> operator .minus)

/-- Comparisons by size. -/
def relation (expr : Parser RawNode) : Parser RawNode :=
  leftGrouped (sum expr)
    (choice (operator .lessEqual)
      [operator .greaterEqual, operator .less, operator .greater])

/-- Comparisons for equality. -/
def equality (expr : Parser RawNode) : Parser RawNode :=
  leftGrouped (relation expr) (operator .equal <|> operator .notEqual)

/-- Conjunctions. -/
def conjunction (expr : Parser RawNode) : Parser RawNode :=
  leftGrouped (equality expr) (operator .andAnd)

/-- Disjunctions. -/
def disjunction (expr : Parser RawNode) : Parser RawNode :=
  leftGrouped (conjunction expr) (operator .orOr)

/-- An expression. -/
def expression : Parser RawNode := tie disjunction

end MiniJava.Grammar
