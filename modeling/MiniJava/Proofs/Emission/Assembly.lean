import MiniJava.Proofs.Compiled

/-!
# The assembly of a class

What assembly text shows, apart from its layout: the name of the class, the path of its superclass,
the fields with their types, and the methods. `Assembly.ofUnit` has this for a class in
three-address code, and where there is assembly at all, it is the text of that (`text_of_assemble`).

A program has one assembly with given options (`CompileOptions.Emits`), and `compile` puts it out
(`Accepted.exists_emits`). So what is proved of the assembly of a program holds of the text.
-/

namespace MiniJava

namespace Jvm

open Ir (ClassUnit)

/-- What assembly text shows of a class. -/
structure Assembly where
  name : String
  /-- The path of the superclass. -/
  superPath : String
  /-- The fields with their types. -/
  fields : List (String × JType)
  methods : List EmittedMethod
deriving Repr

namespace Assembly

/-- The assembly of a class whose methods are emitted. -/
def ofUnit (u : ClassUnit) : Assembly where
  name := u.name
  superPath := (ClassNames.ofUnit u).superPath u.superclass
  fields := u.fields.map fun f => (f.name, (ClassNames.ofUnit u).jtype f.type)
  methods := u.methods.map (emitted (.ofUnit u))

/-- The constructor, which calls that of the superclass. -/
def constructorLines (a : Assembly) : List String :=
  [".method public <init>()V", "    aload_0", "    invokespecial " ++ a.superPath ++ "/<init>()V",
    "    return", ".end method"]

/-- The text of the assembly. -/
def text (a : Assembly) : String :=
  joinLines (
    [".class public " ++ a.name, ".super " ++ a.superPath] ++
    (if a.fields.isEmpty then [] else [""]) ++
    (a.fields.map fun (name, t) => ".field public " ++ name ++ " " ++ t.text) ++
    "" :: a.constructorLines ++ a.methods.flatMap fun m => "" :: m.lines)

end Assembly

/-- **Where a class has assembly, it is the text of its parts.** -/
theorem text_of_assemble {limit : Option Nat} {u : ClassUnit} {text : String}
    (h : assemble limit u = .ok text) : text = (Assembly.ofUnit u).text := by
  unfold assemble at h
  obtain ⟨es, hes, h⟩ := bind_eq_ok.mp h
  cases h
  rw [eq_map_of_mapM_emitMethod hes]
  unfold Assembly.text Assembly.ofUnit Assembly.constructorLines
  simp only [List.isEmpty_map, List.map_map]
  rfl

end Jvm

open Jvm (Assembly)

/-- The assembly of a program with this symbol table, with these options. -/
def CompileOptions.Emits (options : CompileOptions) (t : SymbolTable) (root : Node) (a : Assembly) :
    Prop :=
  ∃ root', options.Lowers t root root' ∧ ∃ unit, lower t root' = .ok unit ∧ a = .ofUnit unit

variable {options : CompileOptions} {t : SymbolTable} {root : Node}

theorem CompileOptions.Lowers.unique {root' root'' : Node} (h : options.Lowers t root root')
    (h' : options.Lowers t root root'') : root' = root'' := by
  unfold CompileOptions.Lowers at h h'
  split at h
  · rw [if_pos ‹_›] at h'
    obtain ⟨stats, h⟩ := h
    obtain ⟨stats', h'⟩ := h'
    cases h.symm.trans h'
    rfl
  · rw [if_neg ‹_›] at h'
    exact h.trans h'.symm

/-- A program has one assembly. -/
theorem CompileOptions.Emits.unique {a a' : Assembly} (h : options.Emits t root a)
    (h' : options.Emits t root a') : a = a' := by
  obtain ⟨root', hroot, unit, hlower, rfl⟩ := h
  obtain ⟨root'', hroot', unit', hlower', rfl⟩ := h'
  obtain rfl := hroot.unique hroot'
  cases hlower.symm.trans hlower'
  rfl

/-- **What is put out for an accepted program is its assembly.** -/
theorem Accepted.exists_emits {source : String} {table : SymbolTable} {compiled : Compiled}
    (h : Accepted source root table) (hcompile : compile options source = .ok compiled) :
    ∃ root', options.Lowers table root root' ∧ ∃ unit, lower table root' = .ok unit ∧
      options.Emits table root (.ofUnit unit) ∧
      compiled.assembly = (Assembly.ofUnit unit).text := by
  obtain ⟨root', hroot', unit, hlower, text, htext, rfl⟩ := h.compile_eq_ok.mp hcompile
  have hemits : options.Emits table root (.ofUnit unit) := ⟨root', hroot', unit, hlower, rfl⟩
  exact ⟨root', hroot', unit, hlower, hemits, Jvm.text_of_assemble htext⟩

end MiniJava
