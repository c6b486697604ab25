/-!
# Operators

The binary operators (`BinaryOp`) fall into four classes: arithmetic, relational, equality and
logical. The only unary operator (`UnaryOp`) is the negation of truth values.
-/

namespace MiniJava

/-- The binary operators. -/
inductive BinaryOp where
  | add
  | sub
  | mul
  | div
  | lt
  | gt
  | le
  | ge
  | eq
  | ne
  | and
  | or
deriving DecidableEq, Repr, Inhabited

namespace BinaryOp

/-- How an operator is written. -/
def symbol : BinaryOp → String
  | add => "+"
  | sub => "-"
  | mul => "*"
  | div => "/"
  | lt => "<"
  | gt => ">"
  | le => "<="
  | ge => ">="
  | eq => "=="
  | ne => "!="
  | and => "&&"
  | or => "||"

/-- Every binary operator. -/
def all : List BinaryOp := [add, sub, mul, div, lt, gt, le, ge, eq, ne, and, or]

/-- The operator written this way. -/
def ofSymbol? (s : String) : Option BinaryOp := all.find? (·.symbol == s)

theorem ofSymbol?_symbol (op : BinaryOp) : ofSymbol? op.symbol = some op := by
  cases op <;> rfl

/-- Integers to an integer. -/
def isArithmetic : BinaryOp → Bool
  | add | sub | mul | div => true
  | _ => false

/-- Integers to a truth value. -/
def isRelational : BinaryOp → Bool
  | lt | gt | le | ge => true
  | _ => false

/-- Two values of one type to a truth value. -/
def isEquality : BinaryOp → Bool
  | eq | ne => true
  | _ => false

/-- Truth values to a truth value. -/
def isLogical : BinaryOp → Bool
  | and | or => true
  | _ => false

end BinaryOp

/-- The unary operators. -/
inductive UnaryOp where
  | not
deriving DecidableEq, Repr, Inhabited

namespace UnaryOp

/-- How an operator is written. -/
def symbol : UnaryOp → String
  | not => "!"

/-- The operator written this way. -/
def ofSymbol? (s : String) : Option UnaryOp := if s == "!" then some not else none

end UnaryOp

end MiniJava
