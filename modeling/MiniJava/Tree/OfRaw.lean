import MiniJava.Tree
import MiniJava.Tree.Raw

/-!
# From raw trees to syntax trees

`Node.ofRaw?` (`Ast::from_raw`) reads a raw tree by the attributes and children that each kind of
node must have (`convert`, `convert_method`). The first thing that is missing or out of place is the
error (`TreeError`); children that a kind has no use for are passed over. Types become part of their
declaration (`convert_type`) and are no nodes of their own.

Nodes are numbered as they are finished, so each node comes right after the last of its children's
subtrees.
-/

namespace MiniJava

/-! ## What can be wrong with a raw tree -/

/-- What a node allows below it. -/
inductive Allowed where
  | importOrClass
  | fieldOrMethod
  | singleReturnType
  | memberOfMethod
  | flatElement
  | writtenType
deriving DecidableEq, Repr, Inhabited

/-- The words for what is allowed. -/
def Allowed.describe : Allowed → String
  | importOrClass => "an import or class declaration"
  | fieldOrMethod => "a field or method"
  | singleReturnType => "a single return type"
  | memberOfMethod => "a parameter, local or statement"
  | flatElement => "a non-array element type"
  | writtenType => "a type node"

/-- Why a raw tree is no syntax tree. -/
inductive TreeError where
  | unknownKind (kind : String)
  | missingAttribute (kind attr : String)
  | missingChild (kind : String) (index : Nat)
  | unexpectedChild (kind : String) (allowed : Allowed) (found : String)
  | unknownBinaryOperator (op : String)
  | unknownUnaryOperator (op : String)
  | invalidInteger (text : String)
  | invalidBoolean (text : String)
deriving DecidableEq, Repr, Inhabited

/-- The message for a malformed tree. -/
def TreeError.message : TreeError → String
  | unknownKind kind => "unknown node kind '" ++ kind ++ "'"
  | missingAttribute kind attr =>
    "node '" ++ kind ++ "' is missing attribute '" ++ attr ++ "'"
  | missingChild kind index => "node '" ++ kind ++ "' is missing child #" ++ toString index
  | unexpectedChild kind allowed found =>
    "node '" ++ kind ++ "' expected " ++ allowed.describe ++ ", found '" ++ found ++ "'"
  | unknownBinaryOperator op => "unknown binary operator '" ++ op ++ "'"
  | unknownUnaryOperator op => "unknown unary operator '" ++ op ++ "'"
  | invalidInteger text => "invalid integer literal '" ++ text ++ "'"
  | invalidBoolean text => "invalid boolean literal '" ++ text ++ "'"

/-! ## Attributes and types -/

namespace RawNode

/-- An attribute that must be there. -/
def attr (n : RawNode) (key : String) : Except TreeError String :=
  match n.get? key with
  | some value => .ok value
  | none => .error (.missingAttribute n.kind key)

/-- The binary operator named by the attribute `op`. -/
def binaryOp (n : RawNode) : Except TreeError BinaryOp := do
  let op ← n.attr "op"
  match BinaryOp.ofSymbol? op with
  | some op => return op
  | none => throw (.unknownBinaryOperator op)

/-- The unary operator named by the attribute `op`. -/
def unaryOp (n : RawNode) : Except TreeError UnaryOp := do
  let op ← n.attr "op"
  match UnaryOp.ofSymbol? op with
  | some op => return op
  | none => throw (.unknownUnaryOperator op)

/-- The integer written by the attribute `value`. -/
def intValue (n : RawNode) : Except TreeError Int32 := do
  let text ← n.attr "value"
  match readInt32? text with
  | some value => return value
  | none => throw (.invalidInteger text)

/-- The truth value written by the attribute `value`. -/
def boolValue (n : RawNode) : Except TreeError Bool := do
  let text ← n.attr "value"
  if text == "true" then return true
  else if text == "false" then return false
  else throw (.invalidBoolean text)

/-- A kind of raw node that stands for a written type. -/
def isTypeKind (kind : String) : Bool :=
  kind ∈ ["IntType", "BooleanType", "StringType", "VoidType", "ClassType", "ArrayType",
    "VarArgsType"]

/-- A kind of raw node that stands for an array or a row of arguments. -/
def isArrayKind (kind : String) : Bool := kind == "ArrayType" || kind == "VarArgsType"

/-- A written type that is no array. -/
def flatType (n : RawNode) : Except TreeError TypeExpr :=
  match n.kind with
  | "IntType" => .ok .int
  | "BooleanType" => .ok .boolean
  | "StringType" => .ok .string
  | "VoidType" => .ok .void
  | "ClassType" => (n.attr "value").map .named
  | kind => .error (.unexpectedChild "type" .writtenType kind)

/-- A written type. The element of an array is no array. -/
def typeExpr (n : RawNode) : Except TreeError TypeExpr :=
  if isArrayKind n.kind then
    match n.children with
    | [] => .error (.missingChild n.kind 0)
    | element :: _ =>
      if isArrayKind element.kind then
        .error (.unexpectedChild n.kind .flatElement element.kind)
      else do
        let t ← element.flatType
        return if n.kind == "ArrayType" then .array t else .varargs t
  else n.flatType

/-- The type that is the first child of a declaration. -/
def declaredType (n : RawNode) : Except TreeError TypeExpr :=
  match n.children with
  | [] => .error (.missingChild n.kind 0)
  | t :: _ => t.typeExpr

end RawNode

/-! ## Nodes -/

namespace Node

/-- A reading that numbers nodes: the state is the number of nodes finished so far. -/
abbrev Numbering := StateT Nat (Except TreeError)

/-- Finish a node: it gets the next number and the position of the raw node. -/
def finish (raw : RawNode) (kind : Kind Node) : Numbering Node := do
  let id ← get
  set (id + 1)
  return ⟨id, raw.position, kind⟩

/-- What has been read of a method: the type, then parameters, locals and statements, the latest
first. -/
structure MethodParts where
  returnType : Option TypeExpr := none
  params : List Node := []
  locals : List Node := []
  body : List Node := []

mutual

/-- Read a raw node with all that is below it. -/
def read : RawNode → Numbering Node
  | ⟨kind, attributes, children⟩ => do
    let raw : RawNode := ⟨kind, attributes, children⟩
    match Label.ofName? kind with
    | none => throw (.unknownKind kind)
    | some .program =>
      let items ← readItems kind children
      finish raw (.program items)
    | some .importDecl =>
      let path ← raw.attr "value"
      finish raw (.importDecl path)
    | some .classDecl =>
      let (fields, methods) ← readMembers kind children
      let name ← raw.attr "name"
      finish raw (.classDecl name (raw.get? "ext") fields methods)
    | some .varDecl =>
      let name ← raw.attr "name"
      let type ← raw.declaredType
      finish raw (.varDecl name type)
    | some .param =>
      let name ← raw.attr "name"
      let type ← raw.declaredType
      finish raw (.param name type)
    | some .methodDecl =>
      let parts ← readMethod kind children {}
      let name ← raw.attr "methodName"
      let head : MethodHead :=
        ⟨name, raw.flag "isPublic", raw.flag "isStatic", parts.returnType.getD .void⟩
      finish raw
        (.methodDecl head parts.params.reverse parts.locals.reverse parts.body.reverse)
    | some .assign =>
      let target ← raw.attr "value"
      let value ← readChild kind children 0 0
      finish raw (.assign target value)
    | some .arrayAssign =>
      let target ← raw.attr "value"
      let index ← readChild kind children 0 0
      let value ← readChild kind children 1 1
      finish raw (.arrayAssign target index value)
    | some .returning =>
      let value ← readChild? children 0
      finish raw (.returning value)
    | some .ifElse =>
      let condition ← readChild kind children 0 0
      let thenBranch ← readChild kind children 1 1
      let elseBranch ← readChild? children 2
      finish raw (.ifElse condition thenBranch elseBranch)
    | some .whileLoop =>
      let condition ← readChild kind children 0 0
      let body ← readChild kind children 1 1
      finish raw (.whileLoop condition body)
    | some .block =>
      let statements ← readAll children
      finish raw (.block statements)
    | some .exprStmt =>
      let expression ← readChild kind children 0 0
      finish raw (.exprStmt expression)
    | some .binary =>
      let op ← raw.binaryOp
      let left ← readChild kind children 0 0
      let right ← readChild kind children 1 1
      finish raw (.binary op left right)
    | some .unary =>
      let op ← raw.unaryOp
      let operand ← readChild kind children 0 0
      finish raw (.unary op operand)
    | some .varRef =>
      let name ← raw.attr "value"
      finish raw (.varRef name)
    | some .intLit =>
      let value ← raw.intValue
      finish raw (.intLit value)
    | some .boolLit =>
      let value ← raw.boolValue
      finish raw (.boolLit value)
    | some .this => finish raw .this
    | some .newObject =>
      let className ← raw.attr "value"
      finish raw (.newObject className)
    | some .newArray =>
      let size ← readChild kind children 0 0
      finish raw (.newArray (((raw.get? "value").map TypeExpr.ofWord).getD .int) size)
    | some .arrayLit =>
      let elements ← readAll children
      finish raw (.arrayLit elements)
    | some .arrayAccess =>
      let array ← readChild kind children 0 0
      let index ← readChild kind children 1 1
      finish raw (.arrayAccess array index)
    | some .arrayLength =>
      let array ← readChild kind children 0 0
      finish raw (.arrayLength array)
    | some .call =>
      let receiver ← readChild kind children 0 0
      let method ← raw.attr "value"
      let arguments ← readAllAfter children
      finish raw (.call receiver method arguments)
    | some .paren =>
      let inner ← readChild kind children 0 0
      finish raw (.paren inner)
termination_by structural raw => raw

/-- Read the child `n` places further on; `index` is its place in all children of a node of this
kind, in case it is missing. -/
def readChild (kind : String) : List RawNode → (n index : Nat) → Numbering Node
  | [], _, index => throw (.missingChild kind index)
  | raw :: _, 0, _ => read raw
  | _ :: raws, n + 1, index => readChild kind raws n index
termination_by structural raws => raws

/-- Read the child `n` places further on, if there is one. -/
def readChild? : List RawNode → (n : Nat) → Numbering (Option Node)
  | [], _ => return none
  | raw :: _, 0 => return some (← read raw)
  | _ :: raws, n + 1 => readChild? raws n
termination_by structural raws => raws

/-- Read all children. -/
def readAll : List RawNode → Numbering (List Node)
  | [] => return []
  | raw :: raws => do
    let n ← read raw
    let ns ← readAll raws
    return n :: ns
termination_by structural raws => raws

/-- Read all children but the first. -/
def readAllAfter : List RawNode → Numbering (List Node)
  | [] => return []
  | _ :: raws => readAll raws
termination_by structural raws => raws

/-- Read imports and classes. -/
def readItems (kind : String) : List RawNode → Numbering (List Node)
  | [] => return []
  | raw :: raws => do
    if raw.kind != "ImportDeclaration" && raw.kind != "ClassDecl" then
      throw (.unexpectedChild kind .importOrClass raw.kind)
    let n ← read raw
    let ns ← readItems kind raws
    return n :: ns
termination_by structural raws => raws

/-- Read the members of a class: its fields and its methods. -/
def readMembers (kind : String) : List RawNode → Numbering (List Node × List Node)
  | [] => return ([], [])
  | raw :: raws => do
    if raw.kind == "VarDecl" then
      let field ← read raw
      let (fields, methods) ← readMembers kind raws
      return (field :: fields, methods)
    else if raw.kind == "MethodDecl" then
      let method ← read raw
      let (fields, methods) ← readMembers kind raws
      return (fields, method :: methods)
    else throw (.unexpectedChild kind .fieldOrMethod raw.kind)
termination_by structural raws => raws

/-- Read the parts of a method, adding to those already read. -/
def readMethod (kind : String) : List RawNode → MethodParts → Numbering MethodParts
  | [], parts => return parts
  | raw :: raws, parts => do
    if RawNode.isTypeKind raw.kind then
      if parts.returnType.isSome then
        throw (.unexpectedChild kind .singleReturnType raw.kind)
      let t ← raw.typeExpr
      readMethod kind raws { parts with returnType := some t }
    else if raw.kind == "Param" then
      let n ← read raw
      readMethod kind raws { parts with params := n :: parts.params }
    else if raw.kind == "VarDecl" then
      let n ← read raw
      readMethod kind raws { parts with locals := n :: parts.locals }
    else if ((Label.ofName? raw.kind).map Label.isStatement).getD false then
      let n ← read raw
      readMethod kind raws { parts with body := n :: parts.body }
    else throw (.unexpectedChild kind .memberOfMethod raw.kind)
termination_by structural raws => raws

end

/-- The syntax tree that a raw tree denotes. -/
def ofRaw? (raw : RawNode) : Except TreeError Node := (read raw).run' 0

end Node

end MiniJava
