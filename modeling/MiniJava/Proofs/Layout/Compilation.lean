import MiniJava.Proofs.Grammar.Integers
import MiniJava.Proofs.Layout.Grammar
import MiniJava.Proofs.Layout.Optimization
import MiniJava.Proofs.Paraphrase.Checks
import MiniJava.Proofs.Paraphrase.Lowering
import MiniJava.Proofs.Stages

/-!
# Layout does not matter

Two texts with the same tokens compile to the same code with the same warnings, or fail with the
same message. Only the positions in the warnings and errors may differ.

The trees of the two texts differ in positions only (`parse_layout`), and no later stage depends on
positions: a tree without its positions is a paraphrase of the tree, and compiling it gives the same
but for places (`compileTree_unplaced`). Together this is `compile_layout`.
-/

namespace MiniJava

/-! ## Results without positions -/

/-- A diagnostic that points nowhere. -/
def Diagnostic.unplaced (d : Diagnostic) : Diagnostic := { d with position := none }

theorem Diagnostic.unplaced_pointAt (d : Diagnostic) (p : Position) :
    (d.pointAt p).unplaced = d.unplaced := by
  unfold pointAt unplaced
  split <;> rfl

/-- The result of a compilation, with warnings that point nowhere. -/
def Compiled.unplaced (c : Compiled) : Compiled :=
  { c with warnings := c.warnings.map Diagnostic.unplaced }

/-- A semantic error without its position. -/
def SemanticError.unplaced (e : SemanticError) : SemanticError := { e with position := .unknown }

@[simp] theorem SemanticError.message_unplaced (e : SemanticError) :
    e.unplaced.message = e.message := rfl

/-- A syntax error without its span. -/
def SyntaxError.unplaced : SyntaxError → SyntaxError
  | unknownToken text _ => unknownToken text ⟨0, 0⟩
  | unfit failure => unfit failure.unplaced

theorem SyntaxError.message_unplaced (e : SyntaxError) : e.unplaced.message = e.message := by
  cases e with
  | unknownToken => rfl
  | unfit failure => exact failure.message_unplaced

namespace CompileError

/-- A failed compilation without the places of its errors. -/
def unplaced : CompileError → CompileError
  | syntactic errors => syntactic (errors.map SyntaxError.unplaced)
  | tree e => tree e
  | symbolTable e => symbolTable e
  | semantic errors => semantic (errors.map SemanticError.unplaced)
  | optimization e => optimization e
  | lowering e => lowering e.unplaced
  | assembly e => assembly e

theorem ctorIdx_unplaced (e : CompileError) : e.unplaced.ctorIdx = e.ctorIdx := by
  cases e <;> rfl

/-- No message names a place. -/
theorem message_unplaced (e : CompileError) : e.unplaced.message = e.message := by
  cases e with
  | syntactic errors =>
    have h : (errors.map SyntaxError.unplaced).map SyntaxError.message =
        errors.map SyntaxError.message := by
      rw [List.map_map]
      exact List.map_congr_left fun e _ => e.message_unplaced
    exact congrArg (fun ms => "Syntax errors:\n" ++ numbered ms) h
  | semantic errors =>
    have h : (errors.map SemanticError.unplaced).map SemanticError.message =
        errors.map SemanticError.message := by
      rw [List.map_map]
      exact List.map_congr_left fun e _ => e.message_unplaced
    exact congrArg (fun ms => "Semantic errors:\n" ++ numbered ms) h
  | lowering e => exact congrArg ("OLLIR generation error: " ++ ·) e.message_unplaced
  | tree | symbolTable | optimization | assembly => rfl

end CompileError

/-- An outcome without the places in it. -/
def withoutPlaces (x : Except CompileError Compiled) : Except CompileError Compiled :=
  (x.map Compiled.unplaced).mapError CompileError.unplaced

/-- Outcomes that tell the same are two results that tell the same, or two failures with the same
message. -/
theorem results_or_failures {α : Type} {f : Compiled → α} {x y : Except CompileError Compiled}
    (h : (x.map f).mapError CompileError.unplaced = (y.map f).mapError CompileError.unplaced) :
    (∃ c d, x = .ok c ∧ y = .ok d ∧ f c = f d) ∨
    ∃ e e', x = .error e ∧ y = .error e' ∧ e.ctorIdx = e'.ctorIdx ∧ e.message = e'.message := by
  cases x <;> cases y
  case error.error e e' =>
    have hunplaced : e.unplaced = e'.unplaced := Except.error.inj h
    refine .inr ⟨e, e', rfl, rfl, ?_, ?_⟩
    · rw [← e.ctorIdx_unplaced, hunplaced, e'.ctorIdx_unplaced]
    · rw [← e.message_unplaced, hunplaced, e'.message_unplaced]
  case error.ok => cases h
  case ok.error => cases h
  case ok.ok c d => exact .inl ⟨c, d, rfl, rfl, Except.ok.inj h⟩

/-! ## Parsing -/

/-- **What a text parses to depends on its tokens**, but for positions and spans. -/
theorem parse_layout {a b : String} (ha : unknownPieces (pieces 0 a.toList) = [])
    (hb : unknownPieces (pieces 0 b.toList) = []) (h : tokensOf a = tokensOf b) :
    ((parse a).map RawNode.unplaced).mapError (List.map SyntaxError.unplaced) =
      ((parse b).map RawNode.unplaced).mapError (List.map SyntaxError.unplaced) := by
  have hinput : (Input.ofPieces (byteLength a.toList) (pieces 0 a.toList)).SameTokens
      (.ofPieces (byteLength b.toList) (pieces 0 b.toList)) :=
    ⟨rfl, by rw [Input.tokens_ofPieces, Input.tokens_ofPieces, h]⟩
  unfold parse parseInput
  simp only [ha, hb]
  match Grammar.program _, Grammar.program _, Grammar.program_agree _ _ hinput with
  | _, _, .ok value _ _ =>
    refine congrArg Except.ok ?_
    rwa [RawNode.unplaced_resolvePositions, RawNode.unplaced_resolvePositions]
  | _, _, .error failure => exact congrArg (fun x => Except.error [SyntaxError.unfit x]) failure

/-! ## Compiling a tree -/

/-- **Without its positions a tree says the same.** -/
theorem Node.paraphrases_unplaced (t : SymbolTable) (place : Place) (n : Node) :
    Paraphrases t place n n.unplaced := by
  induction n using induction generalizing place with
  | step n ih =>
    obtain ⟨i, p, k⟩ := n
    have hchildren (place : Place) (x : Node × Node)
        (hx : x ∈ (k.map fun c => (c, c.unplaced)).children) : Paraphrases t place x.1 x.2 := by
      rw [Kind.children_map] at hx
      obtain ⟨c, hc, rfl⟩ := List.mem_map.mp hx
      exact ih c hc place
    have hnode : Paraphrases t place ⟨i, p, (k.map fun c => (c, c.unplaced)).map Prod.fst⟩
        ⟨i, .unknown, (k.map fun c => (c, c.unplaced)).map Prod.snd⟩ :=
      .node (hchildren .operand) fun x hx => hchildren .part x (Kind.parts_subset_children _ hx)
    rwa [Kind.map_fst_pairs, Kind.map_map, ← unplaced_mk i p] at hnode

/-- A raw tree without positions has the same table, or the same fault. -/
theorem load_unplaced (raw : RawNode) :
    load raw.unplaced = (load raw).map (Prod.map Node.unplaced id) := by
  unfold load
  rw [Node.ofRaw?_unplaced]
  cases Node.ofRaw? raw with
  | error e => rfl
  | ok root =>
    change ((SymbolTable.ofTree? root.unplaced).mapError CompileError.symbolTable >>= fun table =>
        .ok (root.unplaced, table)) =
      ((SymbolTable.ofTree? root).mapError CompileError.symbolTable >>= fun table =>
        .ok (root, table)).map _
    rw [SymbolTable.ofTree?_eq (root.paraphrases_unplaced default .part)]
    cases SymbolTable.ofTree? root <;> rfl

/-- What does not depend on positions is the same where the same rules are broken. -/
theorem map_eq_of_violations {α : Type} {f : SemanticError → α} {es es' : List SemanticError}
    (h : violations es' = violations es) (hf : ∀ e, f e = f e.unplaced) : es'.map f = es.map f := by
  have heq : f = (fun v => f ⟨v, .unknown⟩) ∘ SemanticError.violation := funext hf
  rw [heq, ← List.map_map, ← List.map_map]
  exact congrArg _ h

/-- The errors that become warnings are the same but for places. -/
theorem mistakes_eq {es es' : List SemanticError} (h : violations es' = violations es) :
    (es'.map fun e => { e.toDiagnostic with severity := .warning }).map Diagnostic.unplaced =
      (es.map fun e => { e.toDiagnostic with severity := .warning }).map Diagnostic.unplaced := by
  rw [List.map_map, List.map_map]
  refine map_eq_of_violations h fun e => ?_
  change { ((Diagnostic.error .semantic e.message).pointAt e.position).unplaced with
      notes := e.violation.notes, suggestions := e.violation.suggestions, severity := .warning } =
    { ((Diagnostic.error .semantic e.message).pointAt .unknown).unplaced with
      notes := e.violation.notes, suggestions := e.violation.suggestions, severity := .warning }
  rw [Diagnostic.unplaced_pointAt, Diagnostic.unplaced_pointAt]

theorem Node.dividesByZero_unplaced (n : Node) : n.unplaced.dividesByZero = n.dividesByZero := by
  unfold dividesByZero
  rw [unplaced_kind]
  cases n.kind with
  | binary op l r =>
    obtain ⟨i, p, k⟩ := r
    cases op <;> cases k <;> rfl
  | _ => rfl

/-- The same divisions by zero are warned of. -/
theorem divisionWarnings_unplaced (root : Node) :
    (divisionWarnings root.unplaced).map Diagnostic.unplaced =
      (divisionWarnings root).map Diagnostic.unplaced := by
  have hwarning (n : Node) :
      (divisionWarning n.unplaced).unplaced = (divisionWarning n).unplaced := by
    change Diagnostic.addNote (Diagnostic.unplaced (.pointAt _ _)) _ =
      Diagnostic.addNote (Diagnostic.unplaced (.pointAt _ _)) _
    rw [Diagnostic.unplaced_pointAt, Diagnostic.unplaced_pointAt]
  rw [divisionWarnings, Node.preorder_unplaced, divisionWarnings, List.filter_map, List.map_map,
    List.map_map, List.map_map]
  simp only [Function.comp_def, Node.dividesByZero_unplaced, hwarning]

/-- Trees with the same three-address code have the same code, but for the warnings. -/
theorem codeOf_agree {α : Type} (f : Compiled → α) {options : CompileOptions} {table : SymbolTable}
    {mistakes mistakes' : List Diagnostic} {root root' : Node}
    (hlower : (lower table root').mapError Ir.LoweringError.unplaced =
      (lower table root).mapError Ir.LoweringError.unplaced)
    (hf : ∀ ir assembly, f ⟨ir, assembly, mistakes' ++ divisionWarnings root'⟩ =
      f ⟨ir, assembly, mistakes ++ divisionWarnings root⟩) :
    ((codeOf options table mistakes' root').map f).mapError CompileError.unplaced =
      ((codeOf options table mistakes root).map f).mapError CompileError.unplaced := by
  unfold codeOf
  cases hl : lower table root <;> cases hl' : lower table root' <;> rw [hl, hl'] at hlower
  case error.error e e' =>
    exact congrArg (fun e => Except.error (CompileError.lowering e)) (Except.error.inj hlower)
  case error.ok => cases hlower
  case ok.error => cases hlower
  case ok.ok unit unit' =>
    cases hlower
    simp only [Except.mapError, bind, Except.bind]
    cases Jvm.assemble options.registerLimit unit with
    | error e => rfl
    | ok text => exact congrArg Except.ok (hf unit.text text)

/-- The code of a tree without positions is the code of the tree. -/
theorem generate_unplaced (options : CompileOptions) (root : Node) (table : SymbolTable) :
    withoutPlaces (generate options (root.unplaced, table)) =
      withoutPlaces (generate options (root, table)) := by
  have hmistakes := mistakes_eq (violations_analyze (root.paraphrases_unplaced table .part))
  have hcode (root : Node) {mistakes mistakes' : List Diagnostic}
      (hmistakes : mistakes'.map Diagnostic.unplaced = mistakes.map Diagnostic.unplaced) :
      withoutPlaces (codeOf options table mistakes' root.unplaced) =
        withoutPlaces (codeOf options table mistakes root) :=
    codeOf_agree _ (lower_eq (root.paraphrases_unplaced table .part)) fun ir assembly =>
      congrArg (Compiled.mk ir assembly) (by
        rw [List.map_append, List.map_append, hmistakes, divisionWarnings_unplaced])
  unfold generate
  cases options.optimize with
  | false => exact hcode root hmistakes
  | true =>
    simp only [optimize_unplaced]
    cases optimize table root with
    | error e => rfl
    | ok r => exact hcode r.1 hmistakes

/-- **Compiling does not depend on positions**, but for those in warnings and errors. -/
theorem compileTree_unplaced (options : CompileOptions) (raw : RawNode) :
    withoutPlaces (compileTree options raw.unplaced) =
      withoutPlaces (compileTree options raw) := by
  rw [compileTree_eq, compileTree_eq, load_unplaced]
  cases load raw with
  | error e => rfl
  | ok loaded =>
    obtain ⟨root, table⟩ := loaded
    have herrors := violations_analyze (root.paraphrases_unplaced table .part)
    have hempty : (analyze table root.unplaced).isEmpty = (analyze table root).isEmpty := by
      simpa only [violations, List.isEmpty_map] using congrArg List.isEmpty herrors
    simp only [Except.map, Prod.map, bind, Except.bind, id, hempty]
    split
    · exact congrArg (fun es => Except.error (CompileError.semantic es))
        (map_eq_of_violations herrors fun _ => rfl)
    · exact generate_unplaced options root table

/-! ## Compiling a text -/

/-- What a text compiles to depends on its tokens, but for places. -/
theorem withoutPlaces_compile (options : CompileOptions) {a b : String}
    (ha : unknownPieces (pieces 0 a.toList) = []) (hb : unknownPieces (pieces 0 b.toList) = [])
    (h : tokensOf a = tokensOf b) :
    withoutPlaces (compile options a) = withoutPlaces (compile options b) := by
  have hparse := parse_layout ha hb h
  unfold compile parseText
  cases hpa : parse a <;> cases hpb : parse b <;> rw [hpa, hpb] at hparse
  case error.error es fs =>
    exact congrArg (fun es => Except.error (CompileError.syntactic es)) (Except.error.inj hparse)
  case error.ok => cases hparse
  case ok.error => cases hparse
  case ok.ok m n =>
    change withoutPlaces (compileTree options m) = withoutPlaces (compileTree options n)
    rw [← compileTree_unplaced options m, ← compileTree_unplaced options n, Except.ok.inj hparse]

/-- **Layout does not matter.** Two texts with the same tokens and no unknown pieces both compile,
to the same code with warnings that differ in their positions only, or both fail in the same way
with the same message. -/
theorem compile_layout (options : CompileOptions) {a b : String}
    (ha : unknownPieces (pieces 0 a.toList) = []) (hb : unknownPieces (pieces 0 b.toList) = [])
    (h : tokensOf a = tokensOf b) :
    (∃ c d, compile options a = .ok c ∧ compile options b = .ok d ∧
      c.ir = d.ir ∧ c.assembly = d.assembly ∧
      c.warnings.map Diagnostic.unplaced = d.warnings.map Diagnostic.unplaced) ∨
    ∃ e f, compile options a = .error e ∧ compile options b = .error f ∧
      e.ctorIdx = f.ctorIdx ∧ e.message = f.message := by
  rcases results_or_failures (withoutPlaces_compile options ha hb h) with
    ⟨c, d, hc, hd, hsame⟩ | hfail
  · obtain ⟨hir, hassembly, hwarnings⟩ := Compiled.mk.inj hsame
    exact .inl ⟨c, d, hc, hd, hir, hassembly, hwarnings⟩
  · exact .inr hfail

/-- A method on one line, and the same on several with comments. -/
theorem compile_layout_comments :
    let options : CompileOptions := { optimize := true }
    let a := "class A { int f(int x) { return x / 0; } }"
    let b := "class A \x7b\n\tint f(int x) /* fails */\n\t\x7b return x/0; // always\n\x7d\x7d"
    a ≠ b ∧ unknownPieces (pieces 0 a.toList) = [] ∧ unknownPieces (pieces 0 b.toList) = [] ∧
      tokensOf a = tokensOf b ∧
      ((∃ c d, compile options a = .ok c ∧ compile options b = .ok d ∧
        c.ir = d.ir ∧ c.assembly = d.assembly ∧
        c.warnings.map Diagnostic.unplaced = d.warnings.map Diagnostic.unplaced) ∨
      ∃ e f, compile options a = .error e ∧ compile options b = .error f ∧
        e.ctorIdx = f.ctorIdx ∧ e.message = f.message) := by
  intro options a b
  have ha : unknownPieces (pieces 0 a.toList) = [] := by decide +kernel
  have hb : unknownPieces (pieces 0 b.toList) = [] := by decide +kernel
  have h : tokensOf a = tokensOf b := by decide +kernel
  exact ⟨by decide, ha, hb, h, compile_layout options ha hb h⟩

end MiniJava
