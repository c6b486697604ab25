import MiniJava.SymbolTable

/-!
# Fresh names

Temporary variables are called `tmp0`, `tmp1` and so on; numbers whose name a program declares are
skipped. Labels are numbered for each construct on its own, and all labels of one construct share a
number. A supply serves a whole class (`LoweringContext`), so that no name is handed out twice.
-/

namespace MiniJava.Ir

/-- The constructs that need labels. -/
inductive LabelKind where
  | ifElse
  | whileLoop
  | and
  | or
deriving DecidableEq, Repr, Inhabited

/-- The next numbers to be used, and the names that no temporary variable may have. -/
structure Supply where
  reserved : List String := []
  nextTemp : Nat := 0
  nextIf : Nat := 0
  nextWhile : Nat := 0
  nextAnd : Nat := 0
  nextOr : Nat := 0
deriving Repr, Inhabited

namespace Supply

/-- The name of a temporary variable. -/
def tempName (n : Nat) : String := "tmp" ++ toString n

/-- A supply for a program: the names of its fields, parameters and local variables are reserved. -/
def ofTable (t : SymbolTable) : Supply :=
  let ofMethod (method : String) :=
    (t.params? method).getD [] ++ (t.locals? method).getD []
  { reserved := (t.fields ++ t.methods.flatMap ofMethod).map Variable.name }

/-- The first number from `n` on whose name is not reserved, found in at most so many steps as the
first argument says. -/
def firstFree (reserved : List String) : Nat → Nat → Nat
  | 0, n => n
  | steps + 1, n =>
    if reserved.contains (tempName n) then firstFree reserved steps (n + 1) else n

/-- A temporary variable that was not used before. One of more numbers than there are reserved names
is free. -/
def temp (s : Supply) : String × Supply :=
  let n := firstFree s.reserved s.reserved.length s.nextTemp
  (tempName n, { s with nextTemp := n + 1 })

/-- A number for the labels of a construct. -/
def label (s : Supply) : LabelKind → Nat × Supply
  | .ifElse => (s.nextIf, { s with nextIf := s.nextIf + 1 })
  | .whileLoop => (s.nextWhile, { s with nextWhile := s.nextWhile + 1 })
  | .and => (s.nextAnd, { s with nextAnd := s.nextAnd + 1 })
  | .or => (s.nextOr, { s with nextOr := s.nextOr + 1 })

end Supply

end MiniJava.Ir
