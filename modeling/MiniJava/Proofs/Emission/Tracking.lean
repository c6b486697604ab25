import MiniJava.Jvm.OfIr
import MiniJava.Proofs.Semantics.StackMachine

/-!
# What the tracker follows

While the code of a method is made, a tracker is told with each instruction how many values it takes
from the stack and puts there, and where it goes on. `StackDepth.step` is what it is to be told,
which follows from the meaning of the instruction: `Instr.pops` and `Instr.pushes`, and whether it
jumps, ends the method or is a label.

`Emit.Makes` says of a part of the emission what it makes and which state it leaves.
`EmitState.after` is the state behind code that was followed in this way, so the parts whose lemmas
speak of it (`push_makes`, `pushBranch_makes`, `goto_makes` and the others) tell the tracker the
right thing.
-/

namespace MiniJava.Jvm

/-! ## Following code -/

namespace StackDepth

/-- Follow one instruction. -/
def step (s : StackDepth) : Instr → StackDepth
  | .label name => s.label name
  | .goto target => s.jump target
  | .ifTrue target => (s.apply 1 0).branch target
  | .ifCompare _ target => (s.apply 2 0).branch target
  | .ret => (s.apply 0 0).terminate
  | .retValue _ => (s.apply 1 0).terminate
  | i => s.apply i.pops i.pushes

end StackDepth

/-- The greatest depth that the stack gets in some code. -/
def stackLimit (code : List Instr) : Nat := (code.foldl StackDepth.step {}).max

/-- The state behind some code in which there are so many comparisons. -/
def EmitState.after (s : EmitState) (code : List Instr) (comparisons : Nat) : EmitState :=
  ⟨s.comparisons + comparisons, code.foldl StackDepth.step s.stack⟩

theorem EmitState.after_append (s : EmitState) (code code' : List Instr) (n n' : Nat) :
    s.after (code ++ code') (n + n') = (s.after code n).after code' n' := by
  rw [after, after, after, List.foldl_append, Nat.add_assoc]

/-! ## What is made -/

/-- The failure is that a variable has no register. -/
def EmitError.isUnknownVariable : EmitError → Bool
  | unknownVariable _ _ => true
  | _ => false

/-- From one state to the other, either this is made or there is a failure, but not for want of a
register. -/
structure Emit.Makes {α : Type} (x : Emit α) (s : EmitState) (ok : Bool) (a : α) (s' : EmitState) :
    Prop where
  run : ok = true → x.run s = .ok (a, s')
  fails : ok = false → ∃ e, e.isUnknownVariable = false ∧ x.run s = .error e

namespace Emit.Makes

variable {α β : Type} {x : Emit α} {f : α → Emit β} {s s' s'' : EmitState} {ok ok' : Bool} {a : α}
  {b : β}

protected theorem pure (a : α) (s : EmitState) : Emit.Makes (pure a) s true a s :=
  ⟨fun _ => rfl, nofun⟩

protected theorem throw {e : EmitError} (he : e.isUnknownVariable = false) :
    Emit.Makes (throw e : Emit α) s false a s' :=
  ⟨nofun, fun _ => ⟨e, he, rfl⟩⟩

/-- The second part is made if the first is. -/
protected theorem bind (hx : x.Makes s ok a s') (hf : (f a).Makes s' ok' b s'') :
    (x >>= f).Makes s (ok && ok') b s'' := by
  constructor
  · intro h
    obtain ⟨hok, hok'⟩ := (Bool.and_eq_true _ _).mp h
    rw [StateT.run_bind, hx.run hok]
    exact hf.run hok'
  · intro h
    rw [StateT.run_bind]
    cases ok with
    | false =>
      obtain ⟨e, hknown, he⟩ := hx.fails rfl
      exact ⟨e, hknown, by rw [he]; rfl⟩
    | true =>
      obtain ⟨e, hknown, he⟩ := hf.fails h
      exact ⟨e, hknown, by rw [hx.run rfl]; exact he⟩

/-- The second part is always made. -/
theorem andThen (hx : x.Makes s ok a s') (hf : (f a).Makes s' true b s'') :
    (x >>= f).Makes s ok b s'' := by
  have hbind := hx.bind hf
  rwa [Bool.and_true] at hbind

/-- The last part only puts code behind other code. -/
theorem last {x : Emit (List Instr)} {f : List Instr → List Instr} {code : List Instr}
    (hx : x.Makes s ok code s') : (x >>= fun code => Pure.pure (f code)).Makes s ok (f code) s' :=
  hx.andThen (.pure _ s')

end Emit.Makes

/-! ## Instructions -/

variable {s : EmitState} {i : Instr}

/-- One instruction is made, and the tracker follows it. -/
theorem Emit.Makes.follow {x : Emit (List Instr)}
    (h : x.run s = .ok ([i], ⟨s.comparisons, s.stack.step i⟩)) :
    x.Makes s true [i] (s.after [i] 0) := ⟨fun _ => h, nofun⟩

theorem push_makes {pops pushes : Nat} (hi : s.stack.step i = s.stack.apply pops pushes) :
    (push i pops pushes).Makes s true [i] (s.after [i] 0) :=
  .follow (by rw [hi]; rfl)

theorem pushBranch_makes {pops : Nat} {target : String}
    (hi : s.stack.step i = (s.stack.apply pops 0).branch target) :
    (pushBranch i pops target).Makes s true [i] (s.after [i] 0) :=
  .follow (by rw [hi]; rfl)

theorem pushReturn_makes {pops : Nat} (hi : s.stack.step i = (s.stack.apply pops 0).terminate) :
    (pushReturn i pops).Makes s true [i] (s.after [i] 0) :=
  .follow (by rw [hi]; rfl)

theorem goto_makes (target : String) :
    (goto target).Makes s true [.goto target] (s.after [.goto target] 0) := .follow rfl

theorem setLabel_makes (name : String) :
    (setLabel name).Makes s true [.label name] (s.after [.label name] 0) := .follow rfl

end MiniJava.Jvm
