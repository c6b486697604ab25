import MiniJava.Proofs.Diagnostic.Checking
import MiniJava.Proofs.Grammar.Points
import MiniJava.Proofs.Grammar.PositionOrder

/-!
# Diagnostics point into the source

What `check` reports points to a place of the text (`check_points`): a syntax error to the bytes of
some tokens or to the end, a semantic error or a division by zero to the position of a node. The
faults of a tree or of a symbol table alone point nowhere.

Positions are 32-bit words. A position that is reported is always that of some offset, but only
where lines and columns are words does it lead back there, and only then is none of them lost: line
0 would stand for an unknown place, and behind `2^32 - 1` bytes of a line the column is 0
(`check_points_long_line`). For spans there is no such condition.
-/

namespace MiniJava

variable {source : String}

/-! ## Spans -/

/-- What is wrong with a text has a span in it. -/
theorem span_within_of_parse {errors : List SyntaxError} (h : parse source = .error errors) :
    ∀ e ∈ errors, e.span.Within source.toList := by
  have hread := Grammar.program_points _ (Input.isPlaced_ofPieces source.toList)
  unfold parse parseInput at h
  dsimp only at h
  cases hunknown : unknownPieces (pieces 0 source.toList) with
  | nil =>
    rw [hunknown] at h
    generalize Grammar.program _ = outcome at h hread
    cases hread with
    | ok => cases h
    | error failure =>
      cases h
      exact List.forall_mem_singleton.mpr failure
  | cons p ps =>
    rw [hunknown] at h
    cases h
    refine List.forall_mem_map.mpr fun q hq => ?_
    rw [← hunknown] at hq
    exact pieces_within [] source.toList q (List.mem_filter.mp hq).1

/-- A text that cannot be loaded has syntax errors, whose spans lie within it, or one fault that
points nowhere. -/
theorem diagnostics_of_loadText_point {e : CompileError} (h : loadText source = .error e) :
    (∀ d ∈ e.diagnostics, ∃ s, d.span = some s ∧ s.Within source.toList) ∨
      (∃ fault, e = .tree fault) ∨ ∃ fault, e = .symbolTable fault := by
  rcases loadText_eq_error h with ⟨errors, hparse, rfl⟩ | hfault
  · exact .inl (List.forall_mem_map.mpr fun e he => ⟨e.span, rfl, span_within_of_parse hparse e he⟩)
  · exact .inr hfault

/-! ## Positions -/

/-- What is found in a tree is found at the position of an offset, if that is known. -/
theorem exists_offset_of_mem_findings {loaded : Node × SymbolTable}
    (h : loadText source = .ok loaded) {d : Diagnostic} (hd : d ∈ findings loaded) :
    ∃ offset, d.position = if ((Lines.ofText source.toList).position offset).isKnown then
      some ((Lines.ofText source.toList).position offset) else none := by
  obtain ⟨m, hm, hposition⟩ := exists_position_eq hd
  obtain ⟨⟨raw, hparse, hread⟩, -⟩ := loaded_of_loadText h
  obtain ⟨r, hr, hmr⟩ := Node.exists_mem_postorder hread hm
  obtain ⟨offset, hoffset⟩ := (RawNode.readFrom_of_parse hparse).exists_position_eq r hr
  exact ⟨offset, hoffset ▸ hmr ▸ hposition⟩

/-- Where lines are words, what is found in a tree is found at a position. -/
theorem exists_position_of_mem_findings {loaded : Node × SymbolTable}
    (h : loadText source = .ok loaded) (hfit : (Lines.ofText source.toList).Fit) {d : Diagnostic}
    (hd : d ∈ findings loaded) : ∃ p, d.position = some p := by
  obtain ⟨offset, hposition⟩ := exists_offset_of_mem_findings h hd
  exact ⟨_, hposition.trans (if_pos (hfit offset).isKnown)⟩

/-! ## Reports -/

variable {d : Diagnostic}

/-- A reported span lies within the text. -/
theorem within_of_mem_check (hd : d ∈ (check source).diagnostics) {s : Span}
    (hs : d.span = some s) : s.Within source.toList := by
  cases h : loadText source with
  | error e =>
    have hd := (isSorting_check_of_error h).mem_iff.mp hd
    rcases diagnostics_of_loadText_point h with hspans | ⟨fault, rfl⟩ | ⟨fault, rfl⟩
    · obtain ⟨t, ht, hwithin⟩ := hspans d hd
      cases hs.symm.trans ht
      exact hwithin
    all_goals
      rw [List.mem_singleton.mp hd] at hs
      cases hs
  | ok loaded =>
    rw [(unplaced_findings d ((isSorting_check_of_ok h).mem_iff.mp hd)).2] at hs
    cases hs

/-- A reported position is known, and that of an offset. -/
theorem exists_offset_of_mem_check (hd : d ∈ (check source).diagnostics) {p : Position}
    (hp : d.position = some p) :
    p.isKnown = true ∧ ∃ offset, p = (Lines.ofText source.toList).position offset := by
  cases h : loadText source with
  | error e =>
    have hd := (isSorting_check_of_error h).mem_iff.mp hd
    cases hp.symm.trans ((diagnostics_of_loadText h).2.2 d hd).2.1
  | ok loaded =>
    obtain ⟨offset, hposition⟩ :=
      exists_offset_of_mem_findings h ((isSorting_check_of_ok h).mem_iff.mp hd)
    rw [hp] at hposition
    split at hposition
    · cases hposition
      exact ⟨‹_›, offset, rfl⟩
    · cases hposition

/-- What is found in a tree is reported, with its position. -/
theorem placed_of_loadText (hfit : (Lines.ofText source.toList).Fit) {root : Node}
    {table : SymbolTable} (h : loadText source = .ok (root, table)) :
    (∀ e ∈ analyze table root, e.toDiagnostic ∈ (check source).diagnostics ∧
      e.toDiagnostic.position = some e.position) ∧
    ∀ d ∈ divisionWarnings root, d ∈ (check source).diagnostics ∧ ∃ p, d.position = some p := by
  have hsort := isSorting_check_of_ok h
  refine ⟨fun e he => ?_, fun d hd => ?_⟩
  · have hmem : e.toDiagnostic ∈ findings (root, table) :=
      List.mem_append_left _ (List.mem_map_of_mem he)
    obtain ⟨p, hp⟩ := exists_position_of_mem_findings h hfit hmem
    refine ⟨hsort.mem_iff.mpr hmem, ?_⟩
    have hplace := e.position_toDiagnostic
    split at hplace
    · exact hplace
    · cases hp.symm.trans hplace
  · have hmem : d ∈ findings (root, table) := List.mem_append_right _ hd
    exact ⟨hsort.mem_iff.mpr hmem, exists_position_of_mem_findings h hfit hmem⟩

/-- What is reported without a place is the fault of a tree or of a symbol table. -/
theorem fault_of_mem_check (hfit : (Lines.ofText source.toList).Fit)
    (hd : d ∈ (check source).diagnostics) (hspan : d.span = none) (hposition : d.position = none) :
    (∃ fault, loadText source = .error (.tree fault) ∧ d = .error .syntactic fault.message) ∨
      ∃ fault, loadText source = .error (.symbolTable fault) ∧
        d = .error .semantic fault.message := by
  cases h : loadText source with
  | error e =>
    have hd := (isSorting_check_of_error h).mem_iff.mp hd
    rcases diagnostics_of_loadText_point h with hspans | ⟨fault, rfl⟩ | ⟨fault, rfl⟩
    · obtain ⟨t, ht, -⟩ := hspans d hd
      cases hspan.symm.trans ht
    · exact .inl ⟨fault, rfl, List.mem_singleton.mp hd⟩
    · exact .inr ⟨fault, rfl, List.mem_singleton.mp hd⟩
  | ok loaded =>
    obtain ⟨q, hq⟩ :=
      exists_position_of_mem_findings h hfit ((isSorting_check_of_ok h).mem_iff.mp hd)
    cases hposition.symm.trans hq

/-- **Every diagnostic points into the source.** A span does not end before it starts and lies on
boundaries of characters. A position has a line and is that of some offset. If all lines and columns
of the text are 32-bit words, it has a column and leads to an offset; what is found in a tree always
has a position, and only a fault of the tree or of the symbol table has neither position nor
span. -/
theorem check_points (source : String) :
    (∀ d ∈ (check source).diagnostics, ∀ s, d.span = some s →
      s.start ≤ s.stop ∧ s.stop ≤ byteLength source.toList ∧
        IsBoundary source.toList s.start ∧ IsBoundary source.toList s.stop) ∧
    (∀ d ∈ (check source).diagnostics, ∀ p, d.position = some p →
      1 ≤ p.line ∧ ∃ offset, p = (Lines.ofText source.toList).position offset) ∧
    ((Lines.ofText source.toList).Fit →
      (∀ d ∈ (check source).diagnostics, ∀ p, d.position = some p →
        1 ≤ p.line ∧ 1 ≤ p.column ∧
          ∃ offset, (Lines.ofText source.toList).offset? p = some offset) ∧
      (∀ root table, loadText source = .ok (root, table) →
        (∀ e ∈ analyze table root, e.toDiagnostic ∈ (check source).diagnostics ∧
          e.toDiagnostic.position = some e.position) ∧
        ∀ d ∈ divisionWarnings root, d ∈ (check source).diagnostics ∧ ∃ p, d.position = some p) ∧
      ∀ d ∈ (check source).diagnostics, d.span = none → d.position = none →
        (∃ fault, loadText source = .error (.tree fault) ∧
          d = .error .syntactic fault.message) ∨
        ∃ fault, loadText source = .error (.symbolTable fault) ∧
          d = .error .semantic fault.message) := by
  refine ⟨fun d hd s hs => ?_, fun d hd p hp => ?_, fun hfit => ⟨fun d hd p hp => ?_,
    fun root table h => placed_of_loadText hfit h,
    fun d hd hspan hposition => fault_of_mem_check hfit hd hspan hposition⟩⟩
  · have hwithin := within_of_mem_check hd hs
    exact ⟨hwithin.le, hwithin.stop.le, hwithin.start, hwithin.stop⟩
  · obtain ⟨hknown, hoffset⟩ := exists_offset_of_mem_check hd hp
    exact ⟨p.isKnown_iff.mp hknown, hoffset⟩
  · obtain ⟨-, offset, rfl⟩ := exists_offset_of_mem_check hd hp
    exact ⟨(hfit offset).one_le_line, (hfit offset).one_le_column, _,
      Lines.offset?_position (hfit offset)⟩

/-- A name that means nothing, divided by zero on the second line. -/
theorem check_points_division :
    let source := "class A \x7b\n  int f() \x7b return x / 0; \x7d\n\x7d"
    (Lines.ofText source.toList).Fit ∧
    ∃ root table, loadText source = .ok (root, table) ∧
      (analyze table root).map SemanticError.position = [⟨2, 20⟩] ∧
      (∀ e ∈ analyze table root, e.toDiagnostic ∈ (check source).diagnostics ∧
        e.toDiagnostic.position = some e.position) ∧
      (divisionWarnings root).length = 1 ∧
      ∀ d ∈ divisionWarnings root, d ∈ (check source).diagnostics ∧ ∃ p, d.position = some p := by
  intro source
  have hfit : (Lines.ofText source.toList).Fit := Lines.fit_of_byteLength_lt (by decide +kernel)
  have hfound : ((loadText source).toOption.any fun loaded =>
      decide ((analyze loaded.2 loaded.1).map SemanticError.position = [⟨2, 20⟩] ∧
        (divisionWarnings loaded.1).length = 1)) = true := by decide +kernel
  cases h : loadText source with
  | error e => rw [h] at hfound; cases hfound
  | ok loaded =>
    rw [h] at hfound
    obtain ⟨hplace, hone⟩ := of_decide_eq_true hfound
    obtain ⟨herrors, hwarnings⟩ := ((check_points source).2.2 hfit).2.1 loaded.1 loaded.2 h
    exact ⟨hfit, loaded.1, loaded.2, rfl, hplace, herrors, hone, hwarnings⟩

/-- A name that means nothing behind `2^32 - 1` bytes of its line: it is reported in column 0, and
there is no offset to that. -/
theorem check_points_long_line :
    let text := "class A\x7bint f()\x7breturn x;\x7d\x7d".toList
    let source := String.ofList (indented 4294967272 text)
    ∃ d ∈ (check source).diagnostics, d.position = some ⟨1, 0⟩ ∧
      (Lines.ofText source.toList).offset? ⟨1, 0⟩ = none := by
  intro text source
  obtain ⟨loaded, hloaded, hfound⟩ := exists_eq_ok_of_any
    (x := do
      let tree ← (parseInput (.ofPieces 4294967299 (pieces 4294967272 text))).mapError
        fun failure => CompileError.syntactic [.unfit failure]
      load (tree.resolvePositions ⟨[], 4294967299⟩))
    (p := fun loaded => (findings loaded).any (·.position == some ⟨1, 0⟩)) (by decide +kernel)
  obtain ⟨tree, htree, hload⟩ := bind_eq_ok.mp hloaded
  have hparse : parse source = .ok (tree.resolvePositions ⟨[], 4294967299⟩) :=
    parse_indented (n := 4294967271) (by rintro c ⟨⟩; rfl) (by decide +kernel)
      (mapError_eq_ok.mp htree)
  have hloadText : loadText source = .ok loaded := by
    rw [loadText, parseText, hparse]
    exact hload
  obtain ⟨d, hd, hposition⟩ := List.any_eq_true.mp hfound
  exact ⟨d, (isSorting_check_of_ok hloadText).mem_iff.mpr hd, beq_iff_eq.mp hposition, rfl⟩

end MiniJava
