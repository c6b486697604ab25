import MiniJava.CommandLine

/-!
# The program

Reads the file that the command line names, runs the command, and writes the results. Diagnostics go
to standard error. The exit code is 0 on success, 1 if the file cannot be read or the program in it
is refused, and 2 if the command line makes no sense.
-/

namespace MiniJava.CommandLine

/-- Write diagnostics about a file to standard error. -/
def report (file : String) (ds : List Diagnostic) : IO Unit :=
  ds.forM fun d => IO.eprint (render file d)

/-- Compile a source, report, and go on with the result. -/
def withCompiled (r : Request) (source : String) (andThen : Compiled → IO Unit) : IO UInt32 := do
  match MiniJava.compile r.settings.options source with
  | .ok result =>
    report r.input result.warnings
    andThen result
    return 0
  | .error e =>
    report r.input e.diagnostics
    IO.eprintln "❌ 编译失败"
    return 1

/-- Run a command on the source that its file holds. -/
def run (r : Request) (source : String) : IO UInt32 :=
  match r.command with
  | .compile =>
    withCompiled r source fun result => do
      if let some path := r.settings.irFile then
        IO.FS.writeFile path result.ir
        IO.println ("📝 OLLIR 已写入 " ++ path)
      IO.FS.writeFile r.settings.output result.assembly
      IO.println ("✅ 成功生成 " ++ r.settings.output)
  | .printIr => withCompiled r source fun result => IO.print result.ir
  | .check => do
    let found := MiniJava.check source
    report r.input found.diagnostics
    match verdict found with
    | .ok line => IO.println line; return 0
    | .error line => IO.eprintln line; return 1

/-- Say what is going to be done. -/
def announce (r : Request) : IO Unit :=
  match r.command with
  | .compile => IO.println ("📦 编译 " ++ r.input ++ " ...")
  | .check => IO.println ("🔍 检查 " ++ r.input ++ " ...")
  | .printIr => return

end MiniJava.CommandLine

/-- Read the command line, run the command, and exit. -/
def main (args : List String) : IO UInt32 := do
  match MiniJava.CommandLine.Request.ofArgs? args with
  | .error e =>
    IO.eprintln ("error: " ++ e.message)
    return 2
  | .ok r =>
    MiniJava.CommandLine.announce r
    match ← (IO.FS.readFile r.input).toBaseIO with
    | .ok source => MiniJava.CommandLine.run r source
    | .error _ =>
      IO.eprintln ("Error: 无法读取 " ++ r.input)
      return 1
