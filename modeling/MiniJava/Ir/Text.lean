import MiniJava.Ir
import MiniJava.Text.Layout

/-!
# Three-address code as text

A statement ends with a semicolon, an assignment is written `:=`, an operand carries its type as a
suffix (`x.i32`), and a label stands on a line of its own.
-/

namespace MiniJava.Ir

/-- The suffix for a type. -/
def IrType.text : IrType → String
  | int32 => "i32"
  | boolean => "bool"
  | void => "V"
  | string => "String"
  | array t => "array." ++ t.text
  | classRef name => name

/-- A variable with its type. -/
def Var.text (v : Var) : String := v.name ++ "." ++ v.type.text

/-- An operand with its type; a class stands without. -/
def Operand.text : Operand → String
  | literal value t => toString value.toInt ++ "." ++ t.text
  | var v => v.text
  | this className => "this." ++ className
  | classRef name => name

/-- A call with the type of its result. -/
def Call.text (c : Call) : String :=
  c.invocation.name ++ "(" ++ c.target.text ++ ", \"" ++ c.method ++ "\"" ++
    String.join (c.arguments.map (", " ++ ·.text)) ++ ")." ++ c.returnType.text

/-- An operation with the type of its result. -/
def Rhs.text : Rhs → String
  | single value => value.text
  | binary op left right =>
    left.text ++ " " ++ op.symbol ++ "." ++ op.resultType.text ++ " " ++ right.text
  | not operand => "!.bool " ++ operand.text
  | call c => c.text
  | getField object field =>
    "getfield(" ++ object.text ++ ", " ++ field.text ++ ")." ++ field.type.text
  | arrayLoad array index =>
    array.name ++ "[" ++ index.text ++ "]." ++ array.type.element.text
  | arrayLength array => "arraylength(" ++ array.text ++ ").i32"
  | newObject className => "new(" ++ className ++ ")." ++ className
  | newArray size t => "new(array, " ++ size.text ++ ")." ++ t.text

/-- An instruction. -/
def Instr.text : Instr → String
  | assign dest value => dest.text ++ " :=." ++ dest.type.text ++ " " ++ value.text ++ ";"
  | arrayStore array index value =>
    let element := array.type.element.text
    array.name ++ "[" ++ index.text ++ "]." ++ element ++ " :=." ++ element ++ " " ++ value.text ++
      ";"
  | putField object field value =>
    "putfield(" ++ object.text ++ ", " ++ field.text ++ ", " ++ value.text ++ ").V;"
  | call c => c.text ++ ";"
  | goto target => "goto " ++ target ++ ";"
  | branch condition target => "if (" ++ condition.text ++ ") goto " ++ target ++ ";"
  | ret (some value) => "ret." ++ value.type.text ++ " " ++ value.text ++ ";"
  | ret none => "ret.V;"
  | label name => name ++ ":"

/-- The line for an instruction. Only labels are not indented. -/
def Instr.line : Instr → String
  | label name => name ++ ":"
  | i => "    " ++ i.text

/-- A method. The last line is not closed. -/
def Method.text (m : Method) : String :=
  let head := ".method " ++ (if m.isPublic then "public " else "") ++
    (if m.isStatic then "static " else "") ++ m.name ++ "(" ++
    String.intercalate ", " (m.params.map Var.text) ++ ")." ++ m.returnType.text ++ " \x7b"
  joinLines (head :: m.code.map Instr.line) ++ "\x7d"

/-- A class: imports, fields, the constructor and the methods. -/
def ClassUnit.text (u : ClassUnit) : String :=
  let imports := u.imports.map fun path => "import " ++ path ++ ";"
  let gap := if u.imports.isEmpty then [] else [""]
  let head := u.name ++ " extends " ++ u.superclass.getD "Object" ++ " \x7b"
  let fields := u.fields.map fun f => "    .field public " ++ f.text ++ ";"
  let constructor :=
    ["", "    .construct " ++ u.name ++ "().V \x7b",
      "        invokespecial(this, \"<init>\").V;", "    \x7d"]
  let methods := u.methods.flatMap fun m => "" :: (textLines m.text).map ("    " ++ ·)
  joinLines (imports ++ gap ++ head :: fields ++ constructor ++ methods ++ ["\x7d"])

end MiniJava.Ir
