import Mathlib.Data.List.Infix
import MiniJava.Jvm.Instr
import MiniJava.Proofs.Text.Lines

/-!
# Lines of assembly read back

A constant is put on the stack by one of several instructions, which differ in the room that they
have for it, and the first four registers have instructions of their own. `Instr.read?` reads such a
line by these forms, as an assembler does: from the word in front it knows what the instruction is
and which numbers may stand behind. A line that `Instr.text` makes is read as the instruction that
it was made of (`Instr.read?_text`), so what is proved of the instructions of a method is proved of
its lines.
-/

namespace MiniJava

/-! ## Integers as text -/

/-- An integer is read back from its text. -/
theorem readInteger?_toString (n : Int) : readInteger? (toString n).toList = some n := by
  have hdigits (k : Nat) : (toString k).toList = Nat.toDigits 10 k := by
    rw [Nat.toString_eq_repr, Nat.toList_repr]
  cases n with
  | ofNat k =>
    change readInteger? (toString k).toList = _
    rw [hdigits]
    unfold readInteger?
    split
    · rename_i cs hminus
      have hdigit : ('-' : Char).isDigit = true :=
        Nat.isDigit_of_mem_toDigits (by decide) (by decide) (hminus ▸ List.mem_cons_self)
      cases hdigit
    · rename_i cs hplus
      have hdigit : ('+' : Char).isDigit = true :=
        Nat.isDigit_of_mem_toDigits (by decide) (by decide) (hplus ▸ List.mem_cons_self)
      cases hdigit
    · rw [readDigits?_toDigits]
      rfl
  | negSucc k =>
    have htext : (toString (Int.negSucc k)).toList = '-' :: (toString (k + 1)).toList := by
      change ("-" ++ toString (k + 1)).toList = _
      rw [String.toList_append]
      rfl
    rw [htext, readInteger?, hdigits, readDigits?_toDigits]
    rfl

namespace Jvm

/-! ## Forms of instructions -/

/-- What stands behind these words in a line. -/
def behindWords? (words line : String) : Option (List Char) :=
  line.toList.dropPrefix? words.toList

theorem behindWords?_append (words rest : String) :
    behindWords? words (words ++ rest) = some rest.toList := by
  rw [behindWords?, String.toList_append]
  exact List.dropPrefix?_append_of_beq _ (beq_self_eq_true _)

theorem behindWords?_eq_none {words line : String}
    (h : ∀ rest, line.toList ≠ words.toList ++ rest) : behindWords? words line = none := by
  refine Option.eq_none_iff_forall_ne_some.mpr fun rest hrest => ?_
  obtain ⟨front, hline, hfront⟩ := List.dropPrefix?_eq_some_iff.mp hrest
  exact h rest (beq_iff_eq.mp hfront ▸ hline)

/-- The words in front of a constant, with the least and the greatest that may stand behind them. -/
def constForms : List (String × Int × Int) :=
  [("iconst_", 0, 5), ("bipush ", -128, 127), ("sipush ", -32768, 32767),
    ("ldc ", -2147483648, 2147483647)]

/-- The constant that a line puts on the stack, if it has this form. -/
def readForm? (line : String) : String × Int × Int → Option Int32
  | (words, least, greatest) => do
    let n ← readInteger? (← behindWords? words line)
    if least ≤ n ∧ n ≤ greatest then some (.ofInt n) else none

/-- The constant that a line puts on the stack. -/
def readConst? (line : String) : Option Int32 :=
  if line = "iconst_m1" then some (-1) else constForms.findSome? (readForm? line)

/-- The families, each with what may stand between the operation and a register, and how many
registers can be named in this way. -/
def registerForms : List (Family × String × Nat) :=
  [(.int, "_", 4), (.int, " ", 65536), (.ref, "_", 4), (.ref, " ", 65536)]

/-- The register that a line with this operation accesses, if the access has this form. -/
def readAccess? (op line : String) : Family × String × Nat → Option (Family × UInt16)
  | (family, gap, bound) => do
    let n ← readDigits? (← behindWords? (family.letter ++ op ++ gap) line)
    if n < bound then some (family, .ofNat n) else none

/-- The register that a line with this operation accesses, and the family of the access. -/
def readRegister? (op line : String) : Option (Family × UInt16) :=
  registerForms.findSome? (readAccess? op line)

/-- The instruction that a line is, if it puts a constant on the stack or accesses a register. -/
def Instr.read? (line : String) : Option Instr :=
  (readConst? line).map .const <|>
  (readRegister? "load" line).map (fun access => .load access.1 access.2) <|>
  (readRegister? "store" line).map (fun access => .store access.1 access.2)

/-! ## Constants -/

/-- The forms are tried one after the other. -/
theorem findSome?_append_cons {α β : Type} {f : α → Option β} {front back : List α} {a : α} {b : β}
    (hfront : ∀ x ∈ front, f x = none) (h : f a = some b) :
    (front ++ a :: back).findSome? f = some b := by
  rw [List.findSome?_append, List.findSome?_eq_none_iff.mpr hfront, List.findSome?_cons, h]
  rfl

/-- A number behind the words of a form is read, if those of the forms in front are other words. -/
theorem readConst?_append (front : List (String × Int × Int)) {back : List (String × Int × Int)}
    {words : String} {least greatest n : Int}
    (hforms : constForms = front ++ (words, least, greatest) :: back)
    (hfront : ∀ form ∈ front, ∀ digits rest, words.toList ++ digits ≠ form.1.toList ++ rest)
    (hminus : (behindWords? words "iconst_m1").bind readInteger? = none)
    (hn : least ≤ n ∧ n ≤ greatest) : readConst? (words ++ toString n) = some (.ofInt n) := by
  have hne : words ++ toString n ≠ "iconst_m1" := by
    intro heq
    rw [← heq, behindWords?_append, Option.bind_some, readInteger?_toString] at hminus
    cases hminus
  have hread : readForm? (words ++ toString n) (words, least, greatest) = some (.ofInt n) := by
    simp only [readForm?, behindWords?_append, readInteger?_toString, Option.bind_eq_bind,
      Option.bind_some, if_pos hn]
  rw [readConst?, if_neg hne, hforms]
  refine findSome?_append_cons (fun form hform => ?_) hread
  have hwords : behindWords? form.1 (words ++ toString n) = none :=
    behindWords?_eq_none fun rest => String.toList_append ▸ hfront form hform _ rest
  rw [readForm?, hwords]
  rfl

/-- **Each constant is read back**, whichever of the four forms it has. -/
theorem readConst?_constText (value : Int32) :
    readConst? (Instr.constText value) = some value := by
  have hofInt : Int32.ofInt value.toInt = value := Int32.ofInt_toInt value
  have hleast := value.le_toInt
  have hgreatest := value.toInt_lt
  have hread {words : String} (h : readConst? (words ++ toString value.toInt) =
      some (.ofInt value.toInt)) : readConst? (words ++ toString value.toInt) = some value :=
    h.trans (congrArg some hofInt)
  unfold Instr.constText
  dsimp only
  split
  · rename_i hminus
    rw [hminus] at hofInt
    exact congrArg some hofInt
  split
  · rename_i h
    exact hread (readConst?_append [] rfl (by simp) rfl h)
  split
  · rename_i h
    exact hread (readConst?_append [_] rfl (by simp) rfl h)
  split
  · rename_i h
    exact hread (readConst?_append [_, _] rfl (by simp) rfl h)
  · exact hread (readConst?_append [_, _, _] rfl (by simp) rfl (by omega))

/-! ## Registers -/

theorem readRegister?_append (front : List (Family × String × Nat))
    {back : List (Family × String × Nat)} {op gap : String} {family : Family} {bound : Nat}
    {register : UInt16}
    (hforms : registerForms = front ++ (family, gap, bound) :: back)
    (hfront : ∀ form ∈ front, ∀ digits rest, (family.letter ++ op ++ gap).toList ++ digits ≠
      (form.1.letter ++ op ++ form.2.1).toList ++ rest)
    (hbound : register.toNat < bound) :
    readRegister? op (family.letter ++ op ++ gap ++ toString register.toNat) =
      some (family, register) := by
  have hdigits : (toString register.toNat).toList = Nat.toDigits 10 register.toNat := by
    rw [Nat.toString_eq_repr, Nat.toList_repr]
  have hread : readAccess? op (family.letter ++ op ++ gap ++ toString register.toNat)
      (family, gap, bound) = some (family, register) := by
    simp only [readAccess?, behindWords?_append, hdigits, readDigits?_toDigits, Option.bind_eq_bind,
      Option.bind_some, if_pos hbound, UInt16.ofNat_toNat]
  rw [readRegister?, hforms]
  refine findSome?_append_cons (fun form hform => ?_) hread
  have hwords : behindWords? (form.1.letter ++ op ++ form.2.1)
      (family.letter ++ op ++ gap ++ toString register.toNat) = none :=
    behindWords?_eq_none fun rest => String.toList_append ▸ hfront form hform _ rest
  rw [readAccess?, hwords]
  rfl

/-- **The register and the family are read back**, whichever of the two forms the access has. -/
theorem readRegister?_registerText (op : String) (family : Family) (register : UInt16) :
    readRegister? op (Instr.registerText op family register) = some (family, register) := by
  have hbound := register.toNat_lt
  unfold Instr.registerText
  split
  · rename_i hshort
    cases family with
    | int => exact readRegister?_append [] rfl (by simp) hshort
    | ref => exact readRegister?_append [_, _] rfl (by simp [Family.letter]) hshort
  · cases family with
    | int => exact readRegister?_append [_] rfl (by simp) hbound
    | ref => exact readRegister?_append [_, _, _] rfl (by simp [Family.letter]) hbound

/-! ## Instructions -/

/-- The instruction puts a constant on the stack or accesses a register. -/
def Instr.hasForms : Instr → Bool
  | const _ | load _ _ | store _ _ => true
  | _ => false

/-- An access to a register does not read as a constant. -/
theorem readConst?_registerText {op : String} (hop : op ∈ ["load", "store"]) (family : Family)
    (register : UInt16) : readConst? (Instr.registerText op family register) = none := by
  have hwords : ∀ words ∈ "iconst_m1" :: constForms.map Prod.fst, ∀ rest,
      (Instr.registerText op family register).toList ≠ words.toList ++ rest := by
    simp only [List.mem_cons, List.not_mem_nil, or_false] at hop
    obtain rfl | rfl := hop <;> cases family <;>
      simp [Instr.registerText, Family.letter, constForms]
  have hne : Instr.registerText op family register ≠ "iconst_m1" := fun heq =>
    hwords _ List.mem_cons_self [] (heq ▸ (List.append_nil _).symm)
  rw [readConst?, if_neg hne]
  refine List.findSome?_eq_none_iff.mpr fun form hform => ?_
  rw [readForm?, behindWords?_eq_none
    (hwords form.1 (List.mem_cons_of_mem _ (List.mem_map_of_mem hform)))]
  rfl

/-- A store does not read as a load. -/
theorem readRegister?_load_store (family : Family) (register : UInt16) :
    readRegister? "load" (Instr.registerText "store" family register) = none := by
  refine List.findSome?_eq_none_iff.mpr fun form hform => ?_
  have hwords : ∀ rest, (Instr.registerText "store" family register).toList ≠
      (form.1.letter ++ "load" ++ form.2.1).toList ++ rest := by
    obtain ⟨family', gap, bound⟩ := form
    cases family <;> cases family' <;> simp [Instr.registerText, Family.letter]
  rw [readAccess?, behindWords?_eq_none hwords]
  rfl

/-- **The text of an instruction means that instruction**, whichever form it has. -/
theorem Instr.read?_text {i : Instr} (h : i.hasForms = true) : read? i.text = some i := by
  cases i with
  | const value =>
    rw [read?, text, readConst?_constText]
    rfl
  | load family register =>
    rw [read?, text, readConst?_registerText (by decide), readRegister?_registerText]
    rfl
  | store family register =>
    rw [read?, text, readConst?_registerText (by decide), readRegister?_load_store,
      readRegister?_registerText]
    rfl
  | _ => cases h

example : Instr.read? "bipush 127" = some (.const 127) ∧ Instr.read? "bipush 128" = none := by
  decide +kernel

end Jvm

end MiniJava
