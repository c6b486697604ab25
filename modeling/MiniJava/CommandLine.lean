import MiniJava.Compile
import MiniJava.Diagnostic.Render
import MiniJava.Text.Number

/-!
# The command line

A command line names a command, the file to read, and options in any order:

* `compile FILE` writes assembly to `a.j` or to the file given by `-o`, and with `--ollir` also
  three-address code to another file;
* `check FILE` reports what there is to say about a program;
* `ollir FILE` prints three-address code.

`compile` and `ollir` take `-O`, `--best-effort` and `-r` with a number of registers
(`CompileFlags`). `Request.ofArgs?` reads the words of a command line; what is written to the
terminal is defined here as well (`cmd_compile`, `cmd_check`, `cmd_ollir`), so that the program
around it only reads and writes.
-/

namespace MiniJava.CommandLine

/-! ## Requests -/

/-- What to do with a file. -/
inductive Command where
  | compile
  | check
  | printIr
deriving DecidableEq, Repr, Inhabited

/-- The command of this name. -/
def Command.ofName? : String → Option Command
  | "compile" => some compile
  | "check" => some check
  | "ollir" => some printIr
  | _ => none

/-- What can be set for a command. -/
inductive Setting where
  | optimize
  | bestEffort
  | registers
  | output
  | irFile
deriving DecidableEq, Repr, Inhabited

namespace Setting

/-- The setting that an option names. -/
def ofOption? : String → Option Setting
  | "-O" | "--optimize" => some optimize
  | "--best-effort" => some bestEffort
  | "-r" | "--registers" => some registers
  | "-o" | "--output" => some output
  | "--ollir" => some irFile
  | _ => none

/-- The next word belongs to the option. -/
def takesValue : Setting → Bool
  | registers | output | irFile => true
  | optimize | bestEffort => false

/-- The setting makes sense for a command. -/
def appliesTo (s : Setting) : Command → Bool
  | .compile => true
  | .check => false
  | .printIr => s ≠ output && s ≠ irFile

end Setting

/-- What the options set. -/
structure Settings where
  output : String := "a.j"
  irFile : Option String := none
  options : CompileOptions := {}
deriving Repr, Inhabited

/-- What a command line asks for. -/
structure Request where
  command : Command
  input : String
  settings : Settings
deriving Repr, Inhabited

/-- Why a command line asks for nothing. -/
inductive UsageError where
  | missingCommand
  | unknownCommand (word : String)
  | missingInput
  | unexpectedArgument (word : String)
  | missingValue (option : String)
  | invalidRegisters (value : String)
deriving DecidableEq, Repr, Inhabited

/-- The message for a command line that asks for nothing. -/
def UsageError.message : UsageError → String
  | missingCommand => "a command is required: compile, check or ollir"
  | unknownCommand word => "unrecognized command '" ++ word ++ "'"
  | missingInput => "an input file is required"
  | unexpectedArgument word => "unexpected argument '" ++ word ++ "'"
  | missingValue option => "a value is required for '" ++ option ++ "'"
  | invalidRegisters value => "'" ++ value ++ "' is not a number of registers"

namespace Settings

/-- Turn on a setting without value. -/
def enable (s : Settings) : Setting → Settings
  | .optimize => { s with options := { s.options with optimize := true } }
  | .bestEffort => { s with options := { s.options with bestEffort := true } }
  | .registers | .output | .irFile => s

/-- Give a setting its value. Registers are numbered by 16-bit words. -/
def assign (s : Settings) (value : String) : Setting → Except UsageError Settings
  | .registers =>
    match readWord? value with
    | some n =>
      if n < 65536 then .ok { s with options := { s.options with registerLimit := some n.toNat } }
      else .error (.invalidRegisters value)
    | none => .error (.invalidRegisters value)
  | .output => .ok { s with output := value }
  | .irFile => .ok { s with irFile := some value }
  | .optimize | .bestEffort => .ok s

end Settings

namespace Request

/-- Read the words behind the command, when the input and the settings are known so far. -/
def readWords (command : Command) (input : Option String) (settings : Settings) :
    List String → Except UsageError Request
  | [] =>
    match input with
    | some file => .ok ⟨command, file, settings⟩
    | none => .error .missingInput
  | word :: rest =>
    match Setting.ofOption? word with
    | some s =>
      if !s.appliesTo command then .error (.unexpectedArgument word)
      else if s.takesValue then
        match rest with
        | [] => .error (.missingValue word)
        | value :: rest => do readWords command input (← settings.assign value s) rest
      else readWords command input (settings.enable s) rest
    | none =>
      if word.startsWith "-" || input.isSome then .error (.unexpectedArgument word)
      else readWords command (some word) settings rest

/-- What the words of a command line ask for. -/
def ofArgs? : List String → Except UsageError Request
  | [] => .error .missingCommand
  | word :: rest =>
    match Command.ofName? word with
    | some command => readWords command none {} rest
    | none => .error (.unknownCommand word)

end Request

/-! ## Messages -/

/-- A diagnostic about a file, in colour. -/
def render (file : String) (d : Diagnostic) : String :=
  { d with file := some file }.render .colored

/-- The last line of a check. It says how a check went wrong, or that it did not. -/
def verdict (r : Report) : Except String String :=
  match r.failedStage with
  | some stage =>
    .error ("❌ " ++ stage.name ++ " 阶段失败: " ++ toString (r.count .error) ++ " 个错误, " ++
      toString (r.count .warning) ++ " 个警告")
  | none =>
    if r.hasErrors then .error ("❌ 发现 " ++ toString (r.count .error) ++ " 个错误")
    else .ok "✅ 无错误"

end MiniJava.CommandLine
