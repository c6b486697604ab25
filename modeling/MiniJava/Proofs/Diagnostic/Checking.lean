import MiniJava.Proofs.Compiled
import MiniJava.Proofs.Diagnostic.Places
import MiniJava.Proofs.Stages

/-!
# Checking and compiling

`check` and `compile` accept the same programs (`check_compile`). Both load a program before they do
anything else. If that fails, or if the checks find errors, the program is rejected: `compile` fails
with what was found, and `check` reports the same in the order of the text, together with the
divisions by zero if there is a tree. All other failures come later and are no concern of `check`.
-/

namespace MiniJava

variable {source : String} {options : CompileOptions}

/-! ## Rejections -/

/-- The failures that put the program in the wrong: of parsing, of the tree, of the symbol table and
of the checks. -/
def CompileError.IsRejection : CompileError → Prop
  | syntactic _ | tree _ | symbolTable _ | semantic _ => True
  | optimization _ | lowering _ | assembly _ => False

/-- What is found in a tree that has a symbol table. -/
def findings (loaded : Node × SymbolTable) : List Diagnostic :=
  (analyze loaded.2 loaded.1).map SemanticError.toDiagnostic ++ divisionWarnings loaded.1

/-- A text that does not parse has at least one syntax error. -/
theorem parse_error_ne_nil {errors : List SyntaxError} (h : parse source = .error errors) :
    errors ≠ [] := by
  unfold parse at h
  dsimp only at h
  split at h
  · split at h <;> cases h
    exact List.cons_ne_nil _ _
  · rename_i hunknown
    cases h
    exact fun hnil => hunknown (List.map_eq_nil_iff.mp hnil)

/-- Loading fails with syntax errors, or with a fault of the tree or of the symbol table. -/
theorem loadText_eq_error {e : CompileError} (h : loadText source = .error e) :
    (∃ errors, parse source = .error errors ∧ e = .syntactic errors) ∨
      (∃ fault, e = .tree fault) ∨ ∃ fault, e = .symbolTable fault := by
  unfold loadText parseText at h
  cases hparse : parse source with
  | error errors =>
    rw [hparse] at h
    cases h
    exact .inl ⟨errors, rfl, rfl⟩
  | ok raw =>
    rw [hparse] at h
    change load raw = .error e at h
    unfold load at h
    cases hread : Node.ofRaw? raw with
    | error fault =>
      rw [hread] at h
      cases h
      exact .inr (.inl ⟨fault, rfl⟩)
    | ok root =>
      rw [hread] at h
      change ((SymbolTable.ofTree? root).mapError CompileError.symbolTable >>= fun table =>
        .ok (root, table)) = .error e at h
      cases htable : SymbolTable.ofTree? root with
      | error fault =>
        rw [htable] at h
        cases h
        exact .inr (.inr ⟨fault, rfl⟩)
      | ok table =>
        rw [htable] at h
        cases h

/-- Where loading fails the program is rejected, with errors that have no position. -/
theorem diagnostics_of_loadText {e : CompileError} (h : loadText source = .error e) :
    e.IsRejection ∧ e.diagnostics ≠ [] ∧
      ∀ d ∈ e.diagnostics, d.severity = .error ∧ d.position = none ∧ d.file = none := by
  rcases loadText_eq_error h with ⟨errors, hparse, rfl⟩ | ⟨fault, rfl⟩ | ⟨fault, rfl⟩
  · refine ⟨trivial, fun hnil => parse_error_ne_nil hparse (List.map_eq_nil_iff.mp hnil), ?_⟩
    exact List.forall_mem_map.mpr fun _ _ => ⟨rfl, rfl, rfl⟩
  all_goals exact ⟨trivial, List.cons_ne_nil _ _, List.forall_mem_singleton.mpr ⟨rfl, rfl, rfl⟩⟩

/-! ## Findings -/

theorem severity_toDiagnostic (e : SemanticError) : e.toDiagnostic.severity = .error := by
  rw [SemanticError.toDiagnostic, Diagnostic.pointAt_eq]
  rfl

theorem severity_divisionWarning (n : Node) : (divisionWarning n).severity = .warning := by
  rw [divisionWarning, Diagnostic.pointAt_eq]
  rfl

/-- What is found in a tree names no file and points to no bytes. -/
theorem unplaced_findings {loaded : Node × SymbolTable} :
    ∀ d ∈ findings loaded, d.file = none ∧ d.span = none := by
  refine List.forall_mem_append.mpr ⟨List.forall_mem_map.mpr fun e _ => ?_,
    List.forall_mem_map.mpr fun n _ => ?_⟩
  · rw [SemanticError.toDiagnostic, Diagnostic.pointAt_eq]
    exact ⟨rfl, rfl⟩
  · rw [divisionWarning, Diagnostic.pointAt_eq]
    exact ⟨rfl, rfl⟩

/-- The errors among the findings are those of the checks. -/
theorem filter_findings (loaded : Node × SymbolTable) :
    (findings loaded).filter (·.severity.isError) =
      (analyze loaded.2 loaded.1).map SemanticError.toDiagnostic := by
  rw [findings, List.filter_append, List.filter_eq_self.mpr, List.filter_eq_nil_iff.mpr,
    List.append_nil]
  · refine List.forall_mem_map.mpr fun n _ => ?_
    rw [severity_divisionWarning]
    exact Bool.false_ne_true
  · refine List.forall_mem_map.mpr fun e _ => ?_
    rw [severity_toDiagnostic]
    rfl

/-! ## What `check` reports -/

theorem check_of_loadText_error {e : CompileError} (h : loadText source = .error e) :
    check source = Report.sorted ⟨e.diagnostics⟩ := by
  unfold loadText at h
  unfold check
  rw [h]

theorem check_of_loadText_ok {loaded : Node × SymbolTable} (h : loadText source = .ok loaded) :
    check source = Report.sorted ⟨findings loaded⟩ := by
  unfold loadText at h
  unfold check
  rw [h]
  rfl

/-- **Where loading fails, that failure is reported.** -/
theorem isSorting_check_of_error {e : CompileError} (h : loadText source = .error e) :
    IsSorting (check source).diagnostics e.diagnostics := by
  rw [check_of_loadText_error h]
  exact Report.isSorting_sorted ⟨e.diagnostics⟩

/-- **What is found in a tree is reported in the order of the text.** -/
theorem isSorting_check_of_ok {loaded : Node × SymbolTable} (h : loadText source = .ok loaded) :
    IsSorting (check source).diagnostics (findings loaded) := by
  rw [check_of_loadText_ok h]
  exact Report.isSorting_sorted ⟨findings loaded⟩

/-! ## What `compile` does -/

theorem not_isRejection_of_codeOf {table : SymbolTable} {mistakes : List Diagnostic} {root : Node}
    {e : CompileError} (h : codeOf options table mistakes root = .error e) : ¬ e.IsRejection := by
  unfold codeOf at h
  cases hlower : lower table root with
  | error fault =>
    rw [hlower] at h
    cases h
    exact id
  | ok unit =>
    rw [hlower] at h
    change ((Jvm.assemble options.registerLimit unit).mapError CompileError.assembly >>= _) = _ at h
    cases hassemble : Jvm.assemble options.registerLimit unit with
    | error fault =>
      rw [hassemble] at h
      cases h
      exact id
    | ok text =>
      rw [hassemble] at h
      cases h

/-- What fails behind the checks rejects no program. -/
theorem not_isRejection_of_generate {loaded : Node × SymbolTable} {e : CompileError}
    (h : generate options loaded = .error e) : ¬ e.IsRejection := by
  unfold generate at h
  split at h
  · cases hoptimize : optimize loaded.2 loaded.1 with
    | error fault =>
      rw [hoptimize] at h
      cases h
      exact id
    | ok r =>
      rw [hoptimize] at h
      exact not_isRejection_of_codeOf h
  · exact not_isRejection_of_codeOf h

/-- Without optimization what is found in an accepted program is what it is warned of. -/
theorem warnings_of_generate {loaded : Node × SymbolTable} {c : Compiled}
    (hoptimize : options.optimize = false) (hchecked : analyze loaded.2 loaded.1 = [])
    (h : generate options loaded = .ok c) : c.warnings = findings loaded := by
  simp only [generate, codeOf, hoptimize, hchecked, Bool.false_eq_true, if_false, bind_eq_ok, pure,
    Except.pure, Except.ok.injEq] at h
  obtain ⟨root, rfl, unit, -, text, -, rfl⟩ := h
  rw [findings, hchecked]
  rfl

/-! ## Both -/

/-- **Checking and compiling accept the same programs.** Unless errors are taken for warnings,
`check` reports an error if and only if `compile` rejects the program. Then the errors that it
reports are those of `compile`, with no file, in the order of the text. And what it reports of a
program that is compiled without optimization is what `compile` warns of, in the order of the
text. -/
theorem check_compile (source : String) (options : CompileOptions)
    (hstrict : options.bestEffort = false) :
    ((check source).hasErrors = true ↔
      ∃ e, compile options source = .error e ∧ e.IsRejection) ∧
    (∀ e, compile options source = .error e → e.IsRejection →
      IsSorting ((check source).diagnostics.filter (·.severity.isError)) (e.diagnosticsIn none) ∧
        ∀ d ∈ (check source).diagnostics, d.file = none) ∧
    (options.optimize = false → ∀ c, compile options source = .ok c →
      IsSorting (check source).diagnostics c.warnings) := by
  unfold Report.hasErrors
  rw [List.any_eq_true]
  cases h : loadText source with
  | error e =>
    have hsort := isSorting_check_of_error h
    obtain ⟨hrejected, hne, hall⟩ := diagnostics_of_loadText h
    rw [compile_of_loadText_error h]
    refine ⟨iff_of_true ?_ ⟨e, rfl, hrejected⟩, ?_, nofun⟩
    · obtain ⟨d, hd⟩ := List.exists_mem_of_ne_nil _ hne
      exact ⟨d, hsort.mem_iff.mpr hd, by rw [(hall d hd).1]; rfl⟩
    · rintro _ ⟨⟩ -
      refine ⟨?_, fun d hd => (hall d (hsort.mem_iff.mp hd)).2.2⟩
      have hfilter := hsort.filter (·.severity.isError)
      have herrors : e.diagnostics.filter (·.severity.isError) = e.diagnostics :=
        List.filter_eq_self.mpr fun d hd => by rw [(hall d hd).1]; rfl
      rwa [herrors] at hfilter
  | ok loaded =>
    have hsort := isSorting_check_of_ok h
    rw [compile_of_loadText_ok hstrict h]
    have hfilter := hsort.filter (·.severity.isError)
    rw [filter_findings] at hfilter
    by_cases hchecked : analyze loaded.2 loaded.1 = []
    · rw [if_pos hchecked]
      have hlater {e : CompileError} (he : generate options loaded = .error e) :=
        not_isRejection_of_generate he
      refine ⟨iff_of_false ?_ fun ⟨e, he, hrejected⟩ => hlater he hrejected,
        fun e he hrejected => (hlater he hrejected).elim,
        fun hoptimize c hc => warnings_of_generate hoptimize hchecked hc ▸ hsort⟩
      rintro ⟨d, hd, herror⟩
      have hd := hfilter.mem_iff.mp (List.mem_filter.mpr ⟨hd, herror⟩)
      rw [hchecked] at hd
      cases hd
    · rw [if_neg hchecked]
      refine ⟨iff_of_true ?_ ⟨_, rfl, trivial⟩, ?_, nofun⟩
      · obtain ⟨e, he⟩ := List.exists_mem_of_ne_nil _ hchecked
        obtain ⟨hd, herror⟩ :=
          List.mem_filter.mp (hfilter.mem_iff.mpr (List.mem_map_of_mem he))
        exact ⟨_, hd, herror⟩
      · rintro _ ⟨⟩ -
        exact ⟨hfilter, fun d hd => (unplaced_findings d (hsort.mem_iff.mp hd)).1⟩

/-- A program with an error behind a division by zero, and one with such a division only. -/
theorem check_compile_division :
    let options : CompileOptions := {}
    let rejected := "class A { int f() { return 1 / 0; } int f() { return x; } }"
    let warned := "class A { int f() { return 1 / 0; } }"
    (∃ e, compile options rejected = .error e ∧ e.IsRejection ∧
      (check rejected).hasErrors = true ∧ IsSorting
        ((check rejected).diagnostics.filter (·.severity.isError)) (e.diagnosticsIn none)) ∧
    ∃ c, compile options warned = .ok c ∧ IsSorting (check warned).diagnostics c.warnings := by
  intro options rejected warned
  constructor
  · obtain ⟨hiff, hsort, -⟩ := check_compile rejected options rfl
    obtain ⟨errors, he⟩ : ∃ errors, compile options rejected = .error (.semantic errors) := by
      have h : (match compile options rejected with
        | .error (.semantic _) => true
        | _ => false) = true := by decide +kernel
      split at h
      · exact ⟨_, ‹_›⟩
      · cases h
    exact ⟨_, he, trivial, hiff.mpr ⟨_, he, trivial⟩, (hsort _ he trivial).1⟩
  · obtain ⟨root, table, h, hcode⟩ := Accepted.exists_of_any warned
      (fun root table => (lower table root).toOption.any fun unit =>
        unit.methods.all fun m => m.code.all Ir.Instr.hasBlock) (by decide +kernel)
    cases hlower : lower table root with
    | error e =>
      rw [hlower] at hcode
      cases hcode
    | ok unit =>
      rw [hlower] at hcode
      obtain ⟨c, hc, -⟩ := h.exists_compile_eq_ok hlower hcode
      exact ⟨c, hc, (check_compile warned options rfl).2.2 rfl c hc⟩

end MiniJava
