/-!
# Reading numbers from text

A number is written as an optional sign and at least one decimal digit, and nothing else: no blank,
no separator. `readInt32?` accepts both signs and the range of 32-bit integers; `readNatural?` and
`readWord?` accept only `+`, and the latter the range of 32-bit words. A number out of range is
refused, not cut.
-/

namespace MiniJava

/-- The value of a non-empty row of decimal digits. -/
def readDigits? (cs : List Char) : Option Nat :=
  if cs.isEmpty || !cs.all Char.isDigit then none
  else some (cs.foldl (fun n c => 10 * n + (c.toNat - '0'.toNat)) 0)

/-- A signed integer of any size. -/
def readInteger? : List Char → Option Int
  | '-' :: cs => (readDigits? cs).map fun n => -(n : Int)
  | '+' :: cs => (readDigits? cs).map fun n => (n : Int)
  | cs => (readDigits? cs).map fun n => (n : Int)

/-- An integer between `-2^31` and `2^31 - 1`. -/
def readInt32? (text : String) : Option Int32 :=
  (readInteger? text.toList).bind fun n =>
    if -2147483648 ≤ n ∧ n ≤ 2147483647 then some (Int32.ofInt n) else none

/-- A number of any size, with no minus sign. -/
def readNatural? (text : String) : Option Nat :=
  match text.toList with
  | '+' :: cs => readDigits? cs
  | cs => readDigits? cs

/-- A number below `2^32`, with no minus sign. -/
def readWord? (text : String) : Option UInt32 :=
  (readNatural? text).bind fun n => if n < 4294967296 then some (.ofNat n) else none

end MiniJava
