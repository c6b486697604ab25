import Mathlib.Data.List.TakeWhile
import MiniJava.Proofs.Emission.Assembly
import MiniJava.Proofs.Emission.Calls

/-!
# Imports in assembly

The checks and the lowering look for a name among the imports first. Assembly looks for it last: it
names the class of the program by its own name, and only then goes through the imports. The two
disagree where an import has the simple name of the class. There the superclass and the static calls
that are bound to the import are emitted as those of the class itself, so that a class may be its
own superclass (`not_namesImport_superclass`). Every other import is named by its path
(`namesImport_of_compile`).
-/

namespace MiniJava

open Ir

/-! ## Paths and simple names -/

/-- The simple name of a path with a dot is shorter. -/
theorem length_simpleName_lt {path : String} (h : '.' ∈ path.toList) :
    (simpleName path).toList.length < path.toList.length := by
  have hne : path.toList.reverse.takeWhile (· != '.') ≠ path.toList.reverse := by
    rw [Ne, List.takeWhile_eq_self_iff]
    intro hall
    exact absurd (hall '.' (List.mem_reverse.mpr h)) (by decide)
  have hsublist := List.takeWhile_sublist (l := path.toList.reverse) (· != '.')
  rw [simpleName, String.toList_ofList, List.length_reverse,
    ← path.toList.length_reverse]
  exact lt_of_le_of_ne hsublist.length_le fun heq => hne (hsublist.eq_of_length heq)

/-- A path without dots is its own simple name. -/
theorem simpleName_of_not_mem {path : String} (h : '.' ∉ path.toList) : simpleName path = path := by
  have hall : ∀ c ∈ path.toList.reverse, (c != '.') = true := fun c hc =>
    bne_iff_ne.mpr fun hdot => h (hdot ▸ List.mem_reverse.mp hc)
  rw [simpleName, List.takeWhile_eq_self_iff.mpr hall, List.reverse_reverse, String.ofList_toList]

namespace Jvm

open ClassNames (slashed)

/-- A path is its simple name in assembly as well if it has no dots. -/
theorem slashed_eq_simpleName_iff {path : String} :
    slashed path = simpleName path ↔ '.' ∉ path.toList := by
  constructor
  · intro h hdot
    have hlength : (slashed path).toList.length = path.toList.length := by
      rw [slashed, String.toList_map, List.length_map]
    exact (length_simpleName_lt hdot).ne (h ▸ hlength)
  · intro h
    rw [simpleName_of_not_mem h, ← String.toList_inj, slashed, String.toList_map]
    refine (List.map_congr_left fun c hc => if_neg fun (hdot : c = '.') => h (hdot ▸ hc)).trans ?_
    exact List.map_id _

end Jvm

/-! ## Names that are bound to imports -/

namespace SymbolTable

variable {t : SymbolTable} {name path : String}

/-- Assembly can refer to the import: it has another simple name than the class, or no package. -/
def Reaches (t : SymbolTable) (path : String) : Prop :=
  simpleName path ≠ t.className ∨ '.' ∉ path.toList

/-- What assembly shows for an import: the path, unless the class is in its place. -/
structure NamesImport (t : SymbolTable) (path shown : String) : Prop where
  reached : t.Reaches path → shown = Jvm.ClassNames.slashed path
  shadowed : ¬t.Reaches path → shown = t.className ∧ shown ≠ Jvm.ClassNames.slashed path

/-- **The name of an import is shown as the path or as that of the class.** -/
theorem namesImport_classPath (h : t.qualifiedImport? name = some path) :
    t.NamesImport path (Jvm.ClassNames.classPath ⟨t.className, t.imports⟩ name) := by
  obtain rfl := simpleName_of_qualifiedImport? h
  have hpath : Jvm.ClassNames.classPath ⟨t.className, t.imports⟩ (simpleName path) =
      if simpleName path = t.className then simpleName path else Jvm.ClassNames.slashed path := by
    unfold Jvm.ClassNames.classPath
    split
    · rfl
    · have himport : t.imports.find? (simpleName · == simpleName path) = some path := h
      simp only [himport]
  rw [hpath]
  constructor
  · intro hreaches
    split
    · rename_i heq
      exact (Jvm.slashed_eq_simpleName_iff.mpr (hreaches.resolve_left (not_not_intro heq))).symm
    · rfl
  · intro hreaches
    obtain ⟨heq, hdot⟩ := not_or.mp hreaches
    rw [not_not] at heq
    rw [if_pos heq]
    exact ⟨heq, fun hslashed => hdot (Jvm.slashed_eq_simpleName_iff.mp hslashed.symm)⟩

/-- The superclass is imported. -/
theorem exists_import_of_superclass {root : Node} (h : ofTree? root = .ok t)
    (hname : t.superclass = some name) : ∃ path, t.qualifiedImport? name = some path := by
  unfold ofTree? at h
  cases htop : topLevel root.children [] none with
  | error e => rw [htop] at h; cases h
  | ok r =>
    obtain ⟨imports, c⟩ := r
    rw [htop] at h
    simp only [bind, Except.bind] at h
    split at h
    · rename_i s hs
      split at h
      · cases h
      · rename_i himport
        cases h
        obtain rfl : s = name := Option.some.inj (hs.symm.trans hname)
        rw [Bool.not_eq_true, Bool.not_eq_false', List.any_eq_true] at himport
        exact Option.isSome_iff_exists.mp (List.find?_isSome.mpr himport)
    · rename_i hs
      cases h
      exact absurd hname (hs name)

end SymbolTable

namespace Scope

variable (sc : Scope)

/-- The import to which a name is bound. -/
def importOf? (n : Node) : Option String :=
  match n.kind with
  | .varRef name =>
    match sc.lookup? name with
    | some (.imported path) => some path
    | _ => none
  | _ => none

/-- The import on which a method is called. -/
def importCalled? (n : Node) : Option String :=
  match n.kind with
  | .call receiver _ _ => sc.importOf? receiver
  | _ => none

theorem staticReceiver?_eq_map (n : Node) :
    sc.staticReceiver? n = (sc.importOf? n).map simpleName := by
  obtain ⟨i, p, k⟩ := n
  cases k with
  | varRef name =>
    simp only [staticReceiver?, importOf?]
    cases sc.lookup? name with
    | none => rfl
    | some b => cases b <;> rfl
  | _ => rfl

theorem qualifiedImport?_of_importOf? {n : Node} {path : String}
    (h : sc.importOf? n = some path) :
    sc.table.qualifiedImport? (simpleName path) = some path := by
  unfold importOf? at h
  split at h
  · split at h
    · rename_i hpath
      cases h
      rw [simpleName_of_lookup? hpath]
      exact qualifiedImport?_of_lookup? hpath
    · cases h
  · cases h

end Scope

/-- For each call in a method the import on which it is made, if it is one. -/
def Node.importsCalled (t : SymbolTable) (m : Node) : List (Option String) :=
  match m.kind with
  | .methodDecl head _ _ _ => m.calls.map (Scope.ofMethod t head).importCalled?
  | _ => []

namespace Node

variable {t : SymbolTable} {sc : Scope} {n n' : Node}

/-- What is bound to an import stays so when it is simplified. -/
theorem Simplified.importOf?_eq (h : Simplified t (some sc) n n') (hn : n.WellFormed) :
    sc.importOf? n' = sc.importOf? n := by
  have hreceiver := h.staticReceiver?_eq hn
  rw [sc.staticReceiver?_eq_map, sc.staticReceiver?_eq_map] at hreceiver
  cases h with
  | literal c =>
    have hnone : sc.importOf? (n.become c) = none := by cases c <;> rfl
    rw [hnone] at hreceiver ⊢
    exact (Option.map_eq_none_iff.mp hreceiver.symm).symm
  | @keep _ i p k below => cases k <;> rfl

theorem stays_importCalled? (t : SymbolTable) (sc : Scope) : Stays t sc sc.importCalled? :=
  stays_of_receiver fun _ _ _ _ _ _ _ h hreceiver => h.importOf?_eq hreceiver

end Node

namespace Jvm

/-- **A call on an import is static and names the import.** -/
theorem Enacts.namesImport {sc : Scope} {n : Node} {call : Invoked} {path : String}
    (h : Enacts sc ⟨sc.table.className, sc.table.imports⟩ n call)
    (hpath : sc.importCalled? n = some path) :
    call.invocation = .static ∧ sc.table.NamesImport path call.method.owner := by
  cases h with
  | @call i p receiver method arguments c h =>
    have hstatic := sc.staticReceiver?_eq_map receiver
    have himport : sc.importOf? receiver = some path := hpath
    rw [himport, Option.map_some] at hstatic
    refine ⟨h.invocation.trans (by rw [hstatic]; rfl), ?_⟩
    change sc.table.NamesImport path (ClassNames.owner _ c.target.type)
    rw [h.named _ hstatic]
    exact SymbolTable.namesImport_classPath (sc.qualifiedImport?_of_importOf? himport)

end Jvm

/-! ## Programs -/

open Jvm

variable {source : String} {root : Node} {table : SymbolTable} {options : CompileOptions}
  {compiled : Compiled}

/-- The classes that assembly knows are those of the symbol table. -/
theorem classNames_ofUnit {unit : ClassUnit} (hlower : lower table root = .ok unit) :
    ClassNames.ofUnit unit = ⟨table.className, table.imports⟩ := by
  obtain ⟨methods, rfl⟩ := exists_eq_of_lower hlower
  rfl

/-- The path of the superclass is that to which assembly resolves its name. -/
theorem superPath_ofUnit {unit : ClassUnit} (hlower : lower table root = .ok unit) {name : String}
    (hname : table.superclass = some name) : (Assembly.ofUnit unit).superPath =
      ClassNames.classPath ⟨table.className, table.imports⟩ name := by
  obtain ⟨methods, rfl⟩ := exists_eq_of_lower hlower
  simp only [Assembly.ofUnit, ClassNames.superPath, hname, Option.getD_some]
  rfl

/-- The calls of a method that are made on imports name these. -/
theorem Accepted.forall₂_namesImport (h : Accepted source root table) {n n' : Node}
    (hn : n ∈ root.methods) (hsteps : Relation.ReflTransGen (Node.Reduces table) n n') {m : Method}
    {s s' : Supply} (hm : (lowerMethod (Scope.ofMethod table) n').run s = .ok (m, s')) :
    List.Forall₂ (fun path? call => ∀ path ∈ path?,
      call.invocation = .static ∧ table.NamesImport path call.method.owner)
      (n.importsCalled table) (emitted ⟨table.className, table.imports⟩ m).calls := by
  obtain ⟨head, params, locals, body, hkind, happroves⟩ := h.approves hn
  obtain ⟨body', hkind', happroves'⟩ := Node.of_reduces hsteps hkind happroves
  have himports : n.importsCalled table =
      n'.calls.map (Scope.ofMethod table head).importCalled? := by
    rw [Node.map_calls_of_reduces hsteps hkind happroves (Node.stays_importCalled? table _),
      Node.importsCalled, hkind]
  rw [himports, List.forall₂_map_left_iff]
  have henacts := forall₂_enacts ⟨table.className, table.imports⟩ h.isIdentifier_className
    (fun _ => h.isArray_of_isVarargs) hkind' happroves' hm
  refine henacts.imp fun c call hcall path hpath => ?_
  exact hcall.namesImport hpath

/-- **How assembly names imports**: the superclass and the receivers of static calls are shown by
the paths of the imports to which they are bound, except where an import from a package has the
simple name of the class, which is then shown in its place. -/
theorem namesImport_of_compile (h : Accepted source root table)
    (hcompile : compile options source = .ok compiled) :
    ∃ a, options.Emits table root a ∧ compiled.assembly = a.text ∧
      (∀ s, table.superclass = some s → ∃ path, table.qualifiedImport? s = some path ∧
        table.NamesImport path a.superPath) ∧
      List.Forall₂ (fun n e => n.kind.declaredName? = some e.name ∧
        List.Forall₂ (fun path? call => ∀ path ∈ path?,
          call.invocation = .static ∧ table.NamesImport path call.method.owner)
          (n.importsCalled table) e.calls) root.methods a.methods := by
  obtain ⟨root', hroot', unit, hlower, hemits, htext⟩ := h.exists_emits hcompile
  refine ⟨_, hemits, htext, fun s hs => ?_, ?_⟩
  · obtain ⟨path, hpath⟩ := SymbolTable.exists_import_of_superclass h.declared hs
    rw [superPath_ofUnit hlower hs]
    exact ⟨path, hpath, SymbolTable.namesImport_classPath hpath⟩
  · change List.Forall₂ _ root.methods (unit.methods.map (emitted (.ofUnit unit)))
    rw [List.forall₂_map_right_iff, classNames_ofUnit hlower]
    refine (h.forall₂_lowered hroot' hlower).imp fun n m ⟨hn, n', hsteps, s, s', hm⟩ => ?_
    refine ⟨?_, h.forall₂_namesImport hn hsteps hm⟩
    obtain ⟨head, params, locals, body, hkind, happroves⟩ := h.approves hn
    obtain ⟨body', hkind', -⟩ := Node.of_reduces hsteps hkind happroves
    obtain ⟨_, _, _, _, _, hkind'', -, hname, -⟩ := lowerMethod_eq_ok hm
    cases hkind'.symm.trans hkind''
    rw [hkind]
    exact congrArg some hname.symm

/-- The superclass and a receiver come from packages, and an import without package has the name of
the class. -/
theorem namesImport_of_compile_packages : ∃ root table compiled,
    Accepted "import x.y.B;import z.C;import A;class A extends B{void f(){A.f();C.g(1);this.f();}}"
      root table ∧
    compile {} "import x.y.B;import z.C;import A;class A extends B{void f(){A.f();C.g(1);this.f();}}" =
      .ok compiled ∧
    ∃ a, CompileOptions.Emits {} table root a ∧ compiled.assembly = a.text ∧
      (∀ s, table.superclass = some s → ∃ path, table.qualifiedImport? s = some path ∧
        table.NamesImport path a.superPath) ∧
      List.Forall₂ (fun n e => n.kind.declaredName? = some e.name ∧
        List.Forall₂ (fun path? call => ∀ path ∈ path?,
          call.invocation = .static ∧ table.NamesImport path call.method.owner)
          (n.importsCalled table) e.calls) root.methods a.methods := by
  obtain ⟨root, table, h, hp⟩ := Accepted.exists_of_any
    "import x.y.B;import z.C;import A;class A extends B{void f(){A.f();C.g(1);this.f();}}"
    (fun root table => match lower table root with
      | .ok unit => unit.methods.all fun m => m.code.all Ir.Instr.hasBlock
      | .error _ => false)
    (by decide +kernel)
  split at hp
  · rename_i unit hlower
    obtain ⟨compiled, hcompile, -⟩ := h.exists_compile_eq_ok hlower hp
    exact ⟨root, table, compiled, h, hcompile, namesImport_of_compile h hcompile⟩
  · cases hp

/-- A class that extends an import of its own name is emitted as its own superclass. -/
theorem not_namesImport_superclass : ∃ root table compiled,
    Accepted "import x.A;class A extends A{}" root table ∧
    compile {} "import x.A;class A extends A{}" = .ok compiled ∧
    ∃ a, CompileOptions.Emits {} table root a ∧ compiled.assembly = a.text ∧
      table.superclass = some "A" ∧ table.qualifiedImport? "A" = some "x.A" ∧
      a.superPath ≠ ClassNames.slashed "x.A" := by
  obtain ⟨root, table, h, hp⟩ := Accepted.exists_of_any "import x.A;class A extends A{}"
    (fun root table => match lower table root with
      | .ok unit => (unit.methods.all fun m => m.code.all Ir.Instr.hasBlock) &&
          decide (table.superclass = some "A" ∧ table.qualifiedImport? "A" = some "x.A" ∧
            (Assembly.ofUnit unit).superPath ≠ ClassNames.slashed "x.A")
      | .error _ => false)
    (by decide +kernel)
  split at hp
  · rename_i unit hlower
    obtain ⟨hblocks, hp⟩ := (Bool.and_eq_true _ _).mp hp
    obtain ⟨compiled, hcompile, -⟩ := h.exists_compile_eq_ok hlower hblocks
    obtain ⟨root', hroot', unit', hlower', hemits, htext⟩ := h.exists_emits hcompile
    obtain rfl : root' = root := hroot'
    cases hlower.symm.trans hlower'
    exact ⟨_, _, compiled, h, hcompile, _, hemits, htext, of_decide_eq_true hp⟩
  · cases hp

end MiniJava
