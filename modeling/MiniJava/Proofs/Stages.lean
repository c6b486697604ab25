import MiniJava.Proofs.Accepted

/-!
# The stages of a compilation

Compiling a text is loading it, checking it and generating code (`compile_eq`). Loading yields a
tree with its symbol table, and what the checks find decides whether code is generated. An accepted
program is loaded and the checks find nothing, so compiling it is generating its code
(`Accepted.compile_eq`).
-/

namespace MiniJava

variable {source : String} {options : CompileOptions}

/-- The tree and the symbol table of a text. -/
def loadText (source : String) : Except CompileError (Node × SymbolTable) := do
  load (← parseText source)

/-- The code of a tree: three-address code and assembly. -/
def codeOf (options : CompileOptions) (table : SymbolTable) (mistakes : List Diagnostic)
    (root : Node) : Except CompileError Compiled := do
  let unit ← (lower table root).mapError .lowering
  let assembly ← (Jvm.assemble options.registerLimit unit).mapError .assembly
  return { ir := unit.text, assembly, warnings := mistakes ++ divisionWarnings root }

/-- What comes behind the checks: the optimization, if it is asked for, and the code. -/
def generate (options : CompileOptions) (loaded : Node × SymbolTable) :
    Except CompileError Compiled := do
  let root ←
    if options.optimize then
      ((optimize loaded.2 loaded.1).map Prod.fst).mapError CompileError.optimization
    else pure loaded.1
  codeOf options loaded.2 ((analyze loaded.2 loaded.1).map
    fun e => { e.toDiagnostic with severity := .warning }) root

theorem compileTree_eq (options : CompileOptions) (raw : RawNode) :
    compileTree options raw = load raw >>= fun loaded =>
      if !options.bestEffort && !(analyze loaded.2 loaded.1).isEmpty then
        .error (.semantic (analyze loaded.2 loaded.1))
      else generate options loaded := by
  unfold compileTree
  cases load raw with
  | error e => rfl
  | ok loaded =>
    dsimp only [bind, Except.bind]
    split <;> rfl

theorem compile_eq (options : CompileOptions) (source : String) :
    compile options source = loadText source >>= fun loaded =>
      if !options.bestEffort && !(analyze loaded.2 loaded.1).isEmpty then
        .error (.semantic (analyze loaded.2 loaded.1))
      else generate options loaded := by
  unfold compile loadText
  cases parseText source with
  | error e => rfl
  | ok raw => exact compileTree_eq options raw

/-- A failure of loading is that of compiling. -/
theorem compile_of_loadText_error {e : CompileError} (h : loadText source = .error e) :
    compile options source = .error e := by
  rw [compile_eq, h]
  rfl

theorem compile_of_loadText_ok {loaded : Node × SymbolTable} (hstrict : options.bestEffort = false)
    (h : loadText source = .ok loaded) :
    compile options source =
      if analyze loaded.2 loaded.1 = [] then generate options loaded
      else .error (.semantic (analyze loaded.2 loaded.1)) := by
  rw [compile_eq, h, hstrict]
  dsimp only [bind, Except.bind]
  cases analyze loaded.2 loaded.1 <;> rfl

section Loading

variable {root : Node} {table : SymbolTable}

theorem Loaded.loadText_eq_ok (h : Loaded source root table) :
    loadText source = .ok (root, table) := by
  obtain ⟨raw, hparse, hread⟩ := h.tree
  rw [loadText, parseText, hparse]
  change load raw = _
  rw [load, hread]
  change (SymbolTable.ofTree? root).mapError CompileError.symbolTable >>= _ = _
  rw [h.declared]
  rfl

theorem loaded_of_loadText (h : loadText source = .ok (root, table)) :
    Loaded source root table := by
  unfold loadText parseText load at h
  simp only [bind_eq_ok, mapError_eq_ok] at h
  obtain ⟨raw, hparse, root', hread, table', hdeclared, hloaded⟩ := h
  cases hloaded
  exact ⟨⟨raw, hparse, hread⟩, hdeclared⟩

end Loading

namespace Accepted

variable {root : Node} {table : SymbolTable}

theorem loadText_eq_ok (h : Accepted source root table) : loadText source = .ok (root, table) :=
  h.loaded.loadText_eq_ok

/-- **Compiling an accepted program is generating its code.** -/
protected theorem compile_eq (h : Accepted source root table) :
    compile options source = generate options (root, table) := by
  rw [MiniJava.compile_eq, h.loadText_eq_ok]
  dsimp only [bind, Except.bind]
  rw [h.checked]
  simp

end Accepted

end MiniJava
