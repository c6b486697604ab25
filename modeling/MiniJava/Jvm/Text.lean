import MiniJava.Jvm.OfIr
import MiniJava.Text.Layout

/-!
# Assembly text

A class in assembly (`emit_with`): its head, its fields, a constructor that does nothing, and the
methods with their limits (`EmittedMethod::render`). Labels are indented less than instructions.
-/

namespace MiniJava.Jvm

open Ir (ClassUnit Var)

namespace EmittedMethod

/-- The first line of a method. -/
def header (m : EmittedMethod) : String :=
  ".method " ++ (if m.isPublic then "public " else "") ++ (if m.isStatic then "static " else "") ++
    m.name ++ m.type.text

/-- The instructions, one text each. -/
def codeLines (m : EmittedMethod) : List String := m.code.map Instr.text

/-- A line of code under its method. One that ends with a colon is set as a label. -/
def indented (line : String) : String :=
  (if line.toList.getLast? = some ':' then "  " else "    ") ++ line

/-- The lines of a method. -/
def lines (m : EmittedMethod) : List String :=
  [m.header, "    .limit stack " ++ toString m.stackLimit,
    "    .limit locals " ++ toString m.locals] ++
  m.codeLines.map indented ++ [".end method"]

end EmittedMethod

/-- The line for a field. -/
def fieldLine (classes : ClassNames) (f : Var) : String :=
  ".field public " ++ f.name ++ " " ++ (classes.jtype f.type).text

/-- The assembly text of a class, whose methods use at most so many registers as the limit says. -/
def assemble (limit : Option Nat) (u : ClassUnit) : Except EmitError String := do
  let classes := ClassNames.ofUnit u
  let superPath := classes.superPath u.superclass
  let methods ← u.methods.mapM (emitMethod classes limit)
  let gap := if u.fields.isEmpty then [] else [""]
  return joinLines (
    [".class public " ++ u.name, ".super " ++ superPath] ++
    gap ++ u.fields.map (fieldLine classes) ++
    ["", ".method public <init>()V", "    aload_0",
      "    invokespecial " ++ superPath ++ "/<init>()V", "    return", ".end method"] ++
    methods.flatMap fun m => "" :: m.lines)

end MiniJava.Jvm
