/-!
# The depth of the operand stack

A method declares how deep its operand stack can get. The depth is followed by a `StackTracker`
while the instructions are made, in the order in which they stand. A jump notes the depth at its
label, the first one counting. Behind a jump or a return the next instruction does not run on, so a
label there starts with the depth that was noted for it, or with an empty stack.

The program counts in 32-bit words. Its depths are these as long as a call has less than `2^32`
operands, which no program that fits in memory reaches.
-/

namespace MiniJava.Jvm

/-- The depth of the stack at a place, and the greatest depth so far. -/
structure StackDepth where
  depth : Nat := 0
  max : Nat := 0
  /-- The instruction here runs behind the one in front of it. -/
  reachable : Bool := true
  /-- The depths noted for labels. -/
  atLabels : List (String × Nat) := []
deriving Repr, Inhabited

namespace StackDepth

/-- Take values and then put values. The stack does not get less than empty. -/
def apply (s : StackDepth) (pops pushes : Nat) : StackDepth :=
  let depth := s.depth - pops + pushes
  { s with depth, max := Nat.max s.max depth }

/-- The depth noted for a label. -/
def noted? (s : StackDepth) (label : String) : Option Nat := s.atLabels.lookup label

/-- Note the depth for a label to which there is a jump. -/
def branch (s : StackDepth) (label : String) : StackDepth :=
  match s.noted? label with
  | some _ => s
  | none => { s with atLabels := (label, s.depth) :: s.atLabels }

/-- The next instruction does not run behind this one. -/
def terminate (s : StackDepth) : StackDepth := { s with reachable := false }

/-- Jump in any case. -/
def jump (s : StackDepth) (label : String) : StackDepth := (s.branch label).terminate

/-- Come to a label. -/
def label (s : StackDepth) (label : String) : StackDepth :=
  if s.reachable then s.branch label
  else { s with depth := (s.noted? label).getD 0, reachable := true }

end StackDepth

end MiniJava.Jvm
