import MiniJava.Tree.Operator
import MiniJava.Tree.TypeExpr

/-!
# Kinds of nodes

`Kind α` says what a node of a syntax tree is (`NodeKind`) and holds its children, which are of type
`α`. A tree takes `α` to be its nodes; a graph, in which nodes refer to each other by number, takes
`α` to be the numbers.

`Kind.children` lists the children in the order in which a program writes them, `Kind.map` replaces
each child, and `Kind.label` forgets all but the sort of node.
-/

namespace MiniJava

/-! ## Labels -/

/-- The sorts of nodes. -/
inductive Label where
  | program
  | importDecl
  | classDecl
  | varDecl
  | methodDecl
  | param
  | assign
  | arrayAssign
  | returning
  | ifElse
  | whileLoop
  | block
  | exprStmt
  | binary
  | unary
  | varRef
  | intLit
  | boolLit
  | this
  | newObject
  | newArray
  | arrayLit
  | arrayAccess
  | arrayLength
  | call
  | paren
deriving DecidableEq, Repr, Inhabited

namespace Label

/-- The name of a sort of node. -/
def name : Label → String
  | program => "Program"
  | importDecl => "ImportDeclaration"
  | classDecl => "ClassDecl"
  | varDecl => "VarDecl"
  | methodDecl => "MethodDecl"
  | param => "Param"
  | assign => "AssignStmt"
  | arrayAssign => "ArrayAssignStmt"
  | returning => "ReturnStmt"
  | ifElse => "IfStmt"
  | whileLoop => "WhileStmt"
  | block => "BlockStmt"
  | exprStmt => "ExprStmt"
  | binary => "BinaryExpr"
  | unary => "UnaryExpr"
  | varRef => "VarRef"
  | intLit => "IntegerLiteral"
  | boolLit => "BooleanLiteral"
  | this => "ThisExpr"
  | newObject => "NewObjectExpr"
  | newArray => "NewArrayExpr"
  | arrayLit => "ArrayCreationExpr"
  | arrayAccess => "ArrayAccessExpr"
  | arrayLength => "ArrayLengthExpr"
  | call => "MethodCallExpr"
  | paren => "ParenthesisExpr"

/-- Every sort of node. -/
def all : List Label :=
  [program, importDecl, classDecl, varDecl, methodDecl, param, assign, arrayAssign, returning,
    ifElse, whileLoop, block, exprStmt, binary, unary, varRef, intLit, boolLit, this, newObject,
    newArray, arrayLit, arrayAccess, arrayLength, call, paren]

/-- The sort of node of this name. -/
def ofName? (s : String) : Option Label := all.find? (·.name == s)

theorem ofName?_name (l : Label) : ofName? l.name = some l := by
  cases l <;> rfl

/-- Nodes that stand in a method body. -/
def isStatement : Label → Bool
  | assign | arrayAssign | returning | ifElse | whileLoop | block | exprStmt => true
  | _ => false

end Label

/-! ## Kinds -/

/-- What the head of a method declaration says besides the parameters. -/
structure MethodHead where
  name : String
  isPublic : Bool
  isStatic : Bool
  returnType : TypeExpr
deriving DecidableEq, Repr, Inhabited

/-- What a node is, with its children. -/
inductive Kind (α : Type) where
  /-- The imports and classes of a program in their order. -/
  | program (items : List α)
  /-- An import of a class by its dotted path. -/
  | importDecl (path : String)
  | classDecl (name : String) (superclass : Option String) (fields methods : List α)
  /-- A field, or a local variable of a method. -/
  | varDecl (name : String) (type : TypeExpr)
  | methodDecl (head : MethodHead) (params locals body : List α)
  | param (name : String) (type : TypeExpr)
  | assign (target : String) (value : α)
  /-- The assignment `target[index] = value`. -/
  | arrayAssign (target : String) (index value : α)
  | returning (value : Option α)
  | ifElse (condition thenBranch : α) (elseBranch : Option α)
  | whileLoop (condition body : α)
  | block (statements : List α)
  | exprStmt (expression : α)
  | binary (op : BinaryOp) (left right : α)
  | unary (op : UnaryOp) (operand : α)
  | varRef (name : String)
  | intLit (value : Int32)
  | boolLit (value : Bool)
  | this
  | newObject (className : String)
  | newArray (element : TypeExpr) (size : α)
  | arrayLit (elements : List α)
  | arrayAccess (array index : α)
  | arrayLength (array : α)
  | call (receiver : α) (method : String) (arguments : List α)
  | paren (inner : α)
deriving DecidableEq, Repr, Inhabited

/-! Most kinds have few children. A child is among them because of the place at which it stands. -/

section Places

variable {α : Type} {a b c : α} {as : List α}

theorem mem_second : b ∈ a :: b :: as := List.mem_cons_of_mem a List.mem_cons_self

theorem mem_third : c ∈ a :: b :: c :: as := List.mem_cons_of_mem a mem_second

end Places

namespace Kind

variable {α β : Type}

/-- The children in the order in which a program writes them. -/
def children : Kind α → List α
  | program items => items
  | classDecl _ _ fields methods => fields ++ methods
  | methodDecl _ params locals body => params ++ locals ++ body
  | assign _ value => [value]
  | arrayAssign _ index value => [index, value]
  | returning value => value.toList
  | ifElse condition thenBranch elseBranch => condition :: thenBranch :: elseBranch.toList
  | whileLoop condition body => [condition, body]
  | block statements => statements
  | exprStmt expression => [expression]
  | binary _ left right => [left, right]
  | unary _ operand => [operand]
  | newArray _ size => [size]
  | arrayLit elements => elements
  | arrayAccess array index => [array, index]
  | arrayLength array => [array]
  | call receiver _ arguments => receiver :: arguments
  | paren inner => [inner]
  | importDecl _ | varDecl _ _ | param _ _ | varRef _ | intLit _ | boolLit _ | this
  | newObject _ => []

/-- Replace each child. -/
def map (f : α → β) : Kind α → Kind β
  | program items => program (items.map f)
  | importDecl path => importDecl path
  | classDecl name superclass fields methods =>
    classDecl name superclass (fields.map f) (methods.map f)
  | varDecl name type => varDecl name type
  | methodDecl head params locals body =>
    methodDecl head (params.map f) (locals.map f) (body.map f)
  | param name type => param name type
  | assign target value => assign target (f value)
  | arrayAssign target index value => arrayAssign target (f index) (f value)
  | returning value => returning (value.map f)
  | ifElse condition thenBranch elseBranch =>
    ifElse (f condition) (f thenBranch) (elseBranch.map f)
  | whileLoop condition body => whileLoop (f condition) (f body)
  | block statements => block (statements.map f)
  | exprStmt expression => exprStmt (f expression)
  | binary op left right => binary op (f left) (f right)
  | unary op operand => unary op (f operand)
  | varRef name => varRef name
  | intLit value => intLit value
  | boolLit value => boolLit value
  | this => this
  | newObject className => newObject className
  | newArray element size => newArray element (f size)
  | arrayLit elements => arrayLit (elements.map f)
  | arrayAccess array index => arrayAccess (f array) (f index)
  | arrayLength array => arrayLength (f array)
  | call receiver method arguments => call (f receiver) method (arguments.map f)
  | paren inner => paren (f inner)

/-- The sort of node. -/
def label : Kind α → Label
  | program _ => .program
  | importDecl _ => .importDecl
  | classDecl _ _ _ _ => .classDecl
  | varDecl _ _ => .varDecl
  | methodDecl _ _ _ _ => .methodDecl
  | param _ _ => .param
  | assign _ _ => .assign
  | arrayAssign _ _ _ => .arrayAssign
  | returning _ => .returning
  | ifElse _ _ _ => .ifElse
  | whileLoop _ _ => .whileLoop
  | block _ => .block
  | exprStmt _ => .exprStmt
  | binary _ _ _ => .binary
  | unary _ _ => .unary
  | varRef _ => .varRef
  | intLit _ => .intLit
  | boolLit _ => .boolLit
  | this => .this
  | newObject _ => .newObject
  | newArray _ _ => .newArray
  | arrayLit _ => .arrayLit
  | arrayAccess _ _ => .arrayAccess
  | arrayLength _ => .arrayLength
  | call _ _ _ => .call
  | paren _ => .paren

@[simp] theorem label_map (f : α → β) (k : Kind α) : (k.map f).label = k.label := by
  cases k <;> rfl

@[simp] theorem children_map (f : α → β) (k : Kind α) : (k.map f).children = k.children.map f := by
  cases k with
  | returning value => cases value <;> rfl
  | ifElse _ _ elseBranch => cases elseBranch <;> rfl
  | _ => simp [map, children]

/-- The name of the sort of node. -/
def name (k : Kind α) : String := k.label.name

/-- The name that a declaration introduces. -/
def declaredName? : Kind α → Option String
  | classDecl name _ _ _ | varDecl name _ | param name _ => some name
  | methodDecl head _ _ _ => some head.name
  | _ => none

/-- A literal is an integer or a truth value. -/
def isLiteral : Kind α → Bool
  | intLit _ | boolLit _ => true
  | _ => false

end Kind

end MiniJava
