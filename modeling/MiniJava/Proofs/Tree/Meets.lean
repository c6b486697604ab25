import MiniJava.Proofs.Grammar.Integers
import MiniJava.Proofs.Tree.Numbering

/-!
# Readings and the integers that they meet

The one thing that can be wrong with the tree of a program is an integer that does not fit. So the
outcome of a reading is told by the integers that it meets and by the number of nodes that it makes:
`Meets x digits count` says that the reading `x` fails with the first of the integers that cannot be
read, or else succeeds and numbers so many nodes. The rules follow the monad.

A raw tree `Converts` if reading it meets just the integers that it is written with and numbers all
its nodes but the written types. Rows of such trees are read as wholes (`readAll_meets` and its
likes).
-/

namespace MiniJava

open Token

/-! ## Attributes -/

namespace RawNode

variable {m : RawNode} {key v : String}

theorem attr_eq (h : m.get? key = some v) : m.attr key = .ok v := by
  rw [attr, h]

theorem boolValue_eq {b : Bool} (h : m.get? "value" = some (Grammar.flagText b)) :
    m.boolValue = .ok b := by
  rw [boolValue, attr_eq h]
  cases b <;> rfl

theorem unaryOp_eq (h : m.get? "op" = some "!") : m.unaryOp = .ok .not := by
  rw [unaryOp, attr_eq h]
  rfl

theorem binaryOp_eq {op : BinaryOp} (h : m.get? "op" = some op.symbol) : m.binaryOp = .ok op := by
  rw [binaryOp, attr_eq h]
  simp only [bind, Except.bind, BinaryOp.ofSymbol?_symbol]
  rfl

theorem intValue_eq (h : m.get? "value" = some v) :
    m.intValue = (match readInt32? v with
      | some i => .ok i
      | none => .error (.invalidInteger v)) := by
  rw [intValue, attr_eq h]
  rfl

end RawNode

/-! ## Readings -/

namespace Node

/-- A reading that meets these integers: it fails with the first of them that is no 32-bit integer,
or else it succeeds and numbers so many nodes. -/
def Meets {α : Type} (x : Numbering α) (digits : List String) (count : Nat) : Prop :=
  ∀ s, match digits.find? fun d => (readInt32? d).isNone with
    | some d => x.run s = .error (.invalidInteger d)
    | none => ∃ a, x.run s = .ok (a, s + count)

namespace Meets

variable {α β : Type} {x : Numbering α} {f : α → Numbering β} {ds ds' : List String} {i j : Nat}

protected theorem pure (a : α) : Meets (pure a : Numbering α) [] 0 := fun _ => ⟨a, rfl⟩

protected theorem bind (hx : Meets x ds i) (hf : ∀ a, Meets (f a) ds' j) :
    Meets (x >>= f) (ds ++ ds') (i + j) := by
  intro s
  have hs := hx s
  rw [List.find?_append]
  cases hfind : ds.find? fun d => (readInt32? d).isNone with
  | some d =>
    rw [hfind] at hs
    rw [Option.some_or]
    simp only [StateT.run_bind, hs]
    rfl
  | none =>
    rw [hfind] at hs
    obtain ⟨a, ha⟩ := hs
    rw [Option.none_or, ← Nat.add_assoc]
    have hfs := hf a (s + i)
    simp only [StateT.run_bind, ha]
    exact hfs

/-- What does not fail without a state meets nothing. -/
theorem lift {y : Except TreeError α} {a : α} (hy : y = .ok a) (hf : Meets (f a) ds j) :
    Meets (liftM y >>= f) ds j := by
  subst hy
  exact hf

/-- An integer that can be read has a value, and another is the failure. -/
theorem intValue {m : RawNode} {d : String} {f : Int32 → Numbering β}
    (h : m.get? "value" = some d) (hf : ∀ v, Meets (f v) [] j) :
    Meets (liftM m.intValue >>= f) [d] j := by
  intro s
  rw [RawNode.intValue_eq h]
  cases hd : readInt32? d with
  | none =>
    rw [List.find?_cons_of_pos (by rw [hd]; rfl)]
    rfl
  | some v =>
    rw [List.find?_cons_of_neg (by simp [hd])]
    exact hf v s

protected theorem finish (raw : RawNode) (k : Kind Node) : Meets (finish raw k) [] 1 :=
  fun _ => ⟨_, rfl⟩

theorem then_pure (hx : Meets x ds i) (g : α → β) : Meets (x >>= fun a => pure (g a)) ds i := by
  rw [← List.append_nil ds]
  exact hx.bind fun a => .pure (g a)

/-- A reading that finishes a node. -/
theorem then_finish (hx : Meets x ds i) (raw : RawNode) (k : α → Kind Node) :
    Meets (x >>= fun a => finish raw (k a)) ds (i + 1) := by
  rw [← List.append_nil ds]
  exact hx.bind fun a => .finish raw (k a)

end Meets

end Node

namespace RawNode

open Node

/-! ## Rows of raw nodes -/

/-- The tree can be read if its integers can be, and then all its nodes but the written types are
numbered. -/
def Converts (n : RawNode) : Prop := Meets (read n) (integers n.tokens) n.postorder.length

variable {ns : List RawNode}

theorem readAll_meets (h : ∀ n ∈ ns, n.Converts) :
    Meets (readAll ns) (ns.flatMap fun n => integers n.tokens) (postorderAll ns).length := by
  induction ns with
  | nil => exact .pure []
  | cons n ns ih =>
    obtain ⟨hn, hns⟩ := List.forall_mem_cons.mp h
    rw [List.flatMap_cons, postorderAll, List.length_append]
    exact hn.bind fun a => (ih hns).then_pure _

theorem readItems_meets (kind : String) (h : ∀ n ∈ ns, n.Converts)
    (hkind : ∀ n ∈ ns, n.kind = Label.importDecl.name ∨ n.kind = Label.classDecl.name) :
    Meets (readItems kind ns) (ns.flatMap fun n => integers n.tokens)
      (postorderAll ns).length := by
  induction ns with
  | nil => exact .pure []
  | cons n ns ih =>
    obtain ⟨hn, hns⟩ := List.forall_mem_cons.mp h
    obtain ⟨hk, hks⟩ := List.forall_mem_cons.mp hkind
    have hif : (n.kind != "ImportDeclaration" && n.kind != "ClassDecl") = false := by
      rcases hk with hk | hk <;> rw [hk] <;> rfl
    rw [List.flatMap_cons, postorderAll, List.length_append, readItems, if_neg (by simp [hif])]
    exact hn.bind fun a => (ih hns hks).then_pure _

theorem readMembers_meets (kind : String) (h : ∀ n ∈ ns, n.Converts)
    (hkind : ∀ n ∈ ns, n.kind = Label.varDecl.name ∨ n.kind = Label.methodDecl.name) :
    Meets (readMembers kind ns) (ns.flatMap fun n => integers n.tokens)
      (postorderAll ns).length := by
  induction ns with
  | nil => exact .pure ([], [])
  | cons n ns ih =>
    obtain ⟨hn, hns⟩ := List.forall_mem_cons.mp h
    obtain ⟨hk, hks⟩ := List.forall_mem_cons.mp hkind
    rw [List.flatMap_cons, postorderAll, List.length_append, readMembers]
    rcases hk with hk | hk <;> rw [hk]
    · exact hn.bind fun a => (ih hns hks).then_pure fun as => (a :: as.1, as.2)
    · exact hn.bind fun a => (ih hns hks).then_pure fun as => (as.1, a :: as.2)

/-- A node that can stand in a method behind its type. -/
def IsPart (n : RawNode) : Prop :=
  n.kind = Label.param.name ∨ n.kind = Label.varDecl.name ∨
    ∃ l : Label, l.isStatement = true ∧ n.kind = l.name

theorem readMethod_meets (kind : String) (h : ∀ n ∈ ns, n.Converts) (hpart : ∀ n ∈ ns, n.IsPart)
    (parts : MethodParts) :
    Meets (readMethod kind ns parts) (ns.flatMap fun n => integers n.tokens)
      (postorderAll ns).length := by
  induction ns generalizing parts with
  | nil => exact .pure parts
  | cons n ns ih =>
    obtain ⟨hn, hns⟩ := List.forall_mem_cons.mp h
    obtain ⟨hp, hps⟩ := List.forall_mem_cons.mp hpart
    rw [List.flatMap_cons, postorderAll, List.length_append, readMethod]
    rcases hp with hk | hk | ⟨l, hl, hk⟩ <;> rw [hk]
    · exact hn.bind fun a => ih hns hps _
    · exact hn.bind fun a => ih hns hps _
    · have htype : isTypeKind l.name = false := isTypeKind_of_ofName? (Label.ofName?_name l)
      have hparam : (l.name == "Param") = false := by cases l <;> first | rfl | cases hl
      have hlocal : (l.name == "VarDecl") = false := by cases l <;> first | rfl | cases hl
      simp only [htype, hparam, hlocal, Label.ofName?_name, Option.map_some, Option.getD_some, hl]
      exact hn.bind fun a => ih hns hps _

end RawNode

end MiniJava
