import MiniJava.Diagnostic

/-!
# Reports

A `Report` collects diagnostics in the order in which they come (`DiagnosticSink`). It counts errors
and warnings, names the stage of the first error (`failed_stage`), and sorts by position
(`sort_by_position`).

Sorting is stable, and a diagnostic with no position goes behind all that have one.
-/

namespace MiniJava

/-- Diagnostics in the order in which they were added. -/
structure Report where
  diagnostics : List Diagnostic := []
deriving Repr, Inhabited

namespace Report

/-- Add one diagnostic at the end. -/
def add (r : Report) (d : Diagnostic) : Report := ⟨r.diagnostics ++ [d]⟩

/-- Add several diagnostics at the end. -/
def append (r : Report) (ds : List Diagnostic) : Report := ⟨r.diagnostics ++ ds⟩

/-- The number of diagnostics. -/
def size (r : Report) : Nat := r.diagnostics.length

/-- Nothing was reported. -/
def isEmpty (r : Report) : Bool := r.diagnostics.isEmpty

/-- The number of diagnostics of one severity. -/
def count (r : Report) (s : Severity) : Nat := r.diagnostics.countP (·.severity = s)

/-- Some diagnostic is an error. -/
def hasErrors (r : Report) : Bool := r.diagnostics.any (·.severity.isError)

/-- The diagnostics of one stage. -/
def ofStage (r : Report) (s : Stage) : List Diagnostic :=
  r.diagnostics.filter (·.stage = some s)

/-- The stage of the first error, if that error names one. -/
def failedStage (r : Report) : Option Stage :=
  (r.diagnostics.find? (·.severity.isError)).bind Diagnostic.stage

/-- What diagnostics are sorted by. The largest 32-bit word takes the place of a missing line and
column, so a missing position comes last. -/
def sortKey (d : Diagnostic) : UInt32 × UInt32 :=
  match d.position with
  | some p => (p.line, p.column)
  | none => (4294967295, 4294967295)

/-- Lexicographic order on the sort keys. -/
def keyLe (a b : UInt32 × UInt32) : Bool := a.1 < b.1 || (a.1 == b.1 && a.2 ≤ b.2)

/-- Sort by position, keeping the order of diagnostics with equal keys. -/
def sorted (r : Report) : Report :=
  ⟨r.diagnostics.mergeSort fun a b => keyLe (sortKey a) (sortKey b)⟩

end Report

end MiniJava
