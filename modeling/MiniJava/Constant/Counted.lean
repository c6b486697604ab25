/-!
# Counting replacements

A pass of the optimizer (`ConstantPropagation`, `ConstantFolding`) returns the new program. It adds
the nodes that it replaces to a counter, and each step hands on a flag that tells whether a node was
replaced; the flag of a pass is all that a round looks at.

`Counted` is a value with such a number and such a flag. The numbers of steps that follow each other
add up, and their flags are joined. Wherever one replacement sets the flag and adds to the counter,
the flag is set exactly if something was counted (`Counted.isChanged_eq`).
-/

namespace MiniJava

/-- A value, how many nodes were replaced to make it, and whether one was. -/
structure Counted (α : Type) where
  value : α
  count : Nat
  /-- The flag that the steps hand on. -/
  isChanged : Bool
  isChanged_eq : isChanged = decide (0 < count)
deriving Repr

namespace Counted

variable {α β : Type}

/-- Value and number tell the flag. -/
@[ext] theorem ext {c d : Counted α} (hvalue : c.value = d.value) (hcount : c.count = d.count) :
    c = d := by
  obtain ⟨value, count, isChanged, hc⟩ := c
  obtain ⟨value', count', isChanged', hd⟩ := d
  cases hvalue
  cases hcount
  cases hc.trans hd.symm
  rfl

theorem isChanged_iff (c : Counted α) : c.isChanged = true ↔ 0 < c.count := by
  rw [c.isChanged_eq, decide_eq_true_iff]

/-- One replacement. -/
def once (value : α) : Counted α := ⟨value, 1, true, rfl⟩

instance : Monad Counted where
  pure value := ⟨value, 0, false, rfl⟩
  bind c f :=
    let d := f c.value
    ⟨d.value, c.count + d.count, c.isChanged || d.isChanged, by
      rw [c.isChanged_eq, d.isChanged_eq, ← Bool.decide_or, decide_eq_decide]
      omega⟩

@[simp] theorem value_pure (a : α) : (pure a : Counted α).value = a := rfl

@[simp] theorem count_pure (a : α) : (pure a : Counted α).count = 0 := rfl

@[simp] theorem value_bind (c : Counted α) (f : α → Counted β) :
    (c >>= f).value = (f c.value).value := rfl

@[simp] theorem count_bind (c : Counted α) (f : α → Counted β) :
    (c >>= f).count = c.count + (f c.value).count := rfl

instance : LawfulMonad Counted := .mk' _
  (fun _ => Counted.ext rfl (Nat.add_zero _))
  (fun _ _ => Counted.ext rfl (Nat.zero_add _))
  (fun _ _ _ => Counted.ext rfl (Nat.add_assoc _ _ _))

theorem eq_pure {c : Counted α} {a : α} (hvalue : c.value = a) (hcount : c.count = 0) :
    c = pure a :=
  Counted.ext hvalue hcount

end Counted

end MiniJava
