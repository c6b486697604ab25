import Mathlib.Data.List.Flatten
import MiniJava.Proofs.Compiled
import MiniJava.Proofs.Optimize.Congruence
import MiniJava.Session

/-!
# Divisions by zero

The optimizer keeps every division by a literal 0, with everything around it: propagation puts
literals for names only, and what is folded has literals for all its parts, so there is no such
division in it. Other divisions may become divisions by 0.

So the warnings in front of the optimizer are still there behind it, in the same order
(`sublist_divisionWarnings`).
-/

namespace MiniJava

theorem divisionWarnings_eq (n : Node) :
    divisionWarnings n = (if n.dividesByZero then [divisionWarning n] else []) ++
      n.children.flatMap divisionWarnings := by
  unfold divisionWarnings
  rw [Node.preorder_eq, List.filter_cons, List.filter_flatMap]
  split
  · rw [List.map_cons, List.map_flatMap]
    rfl
  · rw [List.map_flatMap]
    rfl

namespace Node

/-- What is a literal stays so, and every division by zero in the first tree is one in the second,
at the same position and in the same order. -/
structure KeepsDivisions (n n' : Node) : Prop where
  literal : ∀ c, n.literal? = some c → n'.literal? = some c
  divisions : (divisionWarnings n).Sublist (divisionWarnings n')

variable {n n' n'' : Node}

protected theorem KeepsDivisions.trans (h : n.KeepsDivisions n') (h' : n'.KeepsDivisions n'') :
    n.KeepsDivisions n'' :=
  ⟨fun c hc => h'.literal c (h.literal c hc), h.divisions.trans h'.divisions⟩

/-- What has no such division and is no literal may become a literal. -/
theorem KeepsDivisions.become (hliteral : n.literal? = none) (hnone : divisionWarnings n = [])
    (c : Constant) : n.KeepsDivisions (n.become c) where
  literal := by
    rw [hliteral]
    exact nofun
  divisions := by
    rw [hnone]
    exact List.nil_sublist _

theorem dividesByZero_iff : n.dividesByZero = true ↔
    ∃ left right, n.kind = .binary .div left right ∧ right.literal? = some (.int 0) := by
  constructor
  · intro h
    unfold dividesByZero at h
    split at h
    · rename_i left i p value hkind
      obtain rfl := of_decide_eq_true h
      exact ⟨left, ⟨i, p, .intLit 0⟩, hkind, rfl⟩
    · cases h
  · rintro ⟨left, right, hkind, hright⟩
    unfold dividesByZero
    rw [hkind, Constant.HoldsAt.eq_become hright]
    rfl

theorem congruence_keepsDivisions : Congruence KeepsDivisions where
  of_children {i p k} below := by
    constructor
    · cases k with
      | intLit | boolLit => exact fun _ h => h
      | _ => exact nofun
    · have hbelow : ((k.map Prod.fst).children.flatMap divisionWarnings).Sublist
          ((k.map Prod.snd).children.flatMap divisionWarnings) := by
        rw [Kind.children_map, Kind.children_map, List.flatMap_map, List.flatMap_map]
        exact List.Sublist.flatMap_right _ fun x hx => (below x hx).divisions
      rw [divisionWarnings_eq, divisionWarnings_eq ⟨i, p, k.map Prod.snd⟩]
      refine List.Sublist.append ?_ hbelow
      split
      · rename_i h
        obtain ⟨left, right, hkind, hright⟩ := dividesByZero_iff.mp h
        cases k with
        | binary op l r =>
          cases hkind
          have hr := (below r mem_second).literal _ hright
          rw [if_pos (dividesByZero_iff.mpr ⟨l.2, r.2, rfl, hr⟩)]
          rfl
        | _ => cases hkind
      · exact List.nil_sublist _

theorem divisionWarnings_of_literal {c : Constant} (h : n.literal? = some c) :
    divisionWarnings n = [] := by
  rw [Constant.HoldsAt.eq_become h]
  cases c <;> rfl

/-- A node that is folded is no division by zero, and neither are its parts. -/
theorem divisionWarnings_of_foldable? {c : Constant} (h : n.kind.foldable? literal? = some c) :
    divisionWarnings n = [] := by
  have hparts : n.children.flatMap divisionWarnings = [] := by
    refine List.flatMap_eq_nil_iff.mpr fun m hm => ?_
    obtain ⟨c', hc'⟩ := (Kind.of_foldable? h).2 m hm
    exact divisionWarnings_of_literal hc'
  rw [divisionWarnings_eq, hparts, List.append_nil, if_neg]
  intro hzero
  obtain ⟨left, right, hkind, hright⟩ := dividesByZero_iff.mp hzero
  rw [hkind] at h
  simp only [Kind.foldable?, hright, Option.bind_eq_bind, Option.bind_eq_some_iff] at h
  obtain ⟨a, -, _, ⟨⟩, hvalue⟩ := h
  cases a <;> cases hvalue

theorem keepsDivisions_foldConstants (n : Node) : n.KeepsDivisions (foldConstants n).value := by
  induction n using induction with
  | step n ih =>
    have hmap : n.KeepsDivisions (n.mapChildren folded) := congruence_keepsDivisions.mapChildren ih
    change n.KeepsDivisions n.folded
    rcases folded_cases n with ⟨-, h⟩ | ⟨c, hc, h⟩
    · rwa [h]
    · rw [h]
      have hnone := hmap.divisions
      rw [divisionWarnings_of_foldable? hc] at hnone
      refine .become ?_ (List.sublist_nil.mp hnone) c
      obtain ⟨i, p, kind⟩ := n
      cases kind with
      | binary | unary | paren => rfl
      | _ => cases hc

theorem keepsDivisions_propagateConstants (t : SymbolTable) (root : Node) :
    root.KeepsDivisions (propagateConstants t root).value :=
  congruence_keepsDivisions.propagateConstants
    (fun i p name c => KeepsDivisions.become (n := ⟨i, p, .varRef name⟩) rfl rfl c) t root

/-- **The optimizer keeps the divisions by zero**, since each round does. -/
theorem keepsDivisions_optimize {t : SymbolTable} {root root' : Node} {stats : OptimizationStats}
    (h : optimize t root = .ok (root', stats)) : root.KeepsDivisions root' := by
  obtain ⟨root₁, stats₁, h₁, hkeeps⟩ := exists_alternate (I := fun _ => True) (R := KeepsDivisions)
    (count_propagateConstants t) count_fold (fun _ _ _ => KeepsDivisions.trans)
    (fun a _ => ⟨trivial, (keepsDivisions_propagateConstants t a).trans
      (keepsDivisions_foldConstants _)⟩)
    (root.size + 1) {} root trivial (Nat.lt_succ_of_le root.nonLiterals_le_size)
  cases h.symm.trans h₁
  exact hkeeps

end Node

/-! ## Programs -/

/-- A program that is compiled is warned of what the checks find, and of the divisions by zero that
are in it when it is lowered. -/
theorem exists_lowers_of_compile {source : String} {options : CompileOptions} {compiled : Compiled}
    (h : compile options source = .ok compiled) :
    ∃ root table root', loadText source = .ok (root, table) ∧ options.Lowers table root root' ∧
      compiled.warnings =
        ((analyze table root).map fun e => { e.toDiagnostic with severity := .warning }) ++
          divisionWarnings root' := by
  rw [compile_eq, bind_eq_ok] at h
  obtain ⟨⟨root, table⟩, hload, h⟩ := h
  split at h
  · cases h
  · obtain ⟨root', hroot', h⟩ := generate_eq_ok.mp h
    obtain ⟨unit, -, text, -, rfl⟩ := codeOf_eq_ok.mp h
    exact ⟨root, table, root', hload, hroot', rfl⟩

/-- **Optimization hides no division by zero.** The optimizer comes to an end, and the warnings of
divisions by zero in a tree that has been read are among those in the optimized tree, in the same
order. So whatever a program is warned of when it is compiled without optimization, it is warned of
with optimization as well. -/
theorem sublist_divisionWarnings :
    (∀ (raw : RawNode) (root : Node) (t : SymbolTable), Node.ofRaw? raw = .ok root →
      ∃ root' stats, optimize t root = .ok (root', stats) ∧
        (∃ s, (Session.start root t).optimize = .ok (s, stats) ∧ s.tree = root') ∧
        (divisionWarnings root).Sublist (divisionWarnings root')) ∧
    ∀ (source : String) (plain optimizing : CompileOptions) (c c' : Compiled),
      plain.optimize = false → optimizing.optimize = true →
        compile plain source = .ok c → compile optimizing source = .ok c' →
          c.warnings.Sublist c'.warnings := by
  constructor
  · intro raw root t h
    obtain ⟨g, stats, hgraph, -⟩ := Graph.exists_optimize t (.ofTree root)
    obtain ⟨root', hoptimize, hshows⟩ := Graph.shows_of_optimize t h hgraph
    refine ⟨root', stats, hoptimize, ⟨{ Session.start root t with graph := g }, ?_, hshows.toTree⟩,
      (Node.keepsDivisions_optimize hoptimize).divisions⟩
    unfold Session.optimize
    change (Graph.optimize t (.ofTree root)) >>= _ = _
    rw [hgraph]
    rfl
  · intro source plain optimizing c c' hplain hoptimizing h h'
    obtain ⟨root, table, lowered, hload, hlowers, hwarnings⟩ := exists_lowers_of_compile h
    obtain ⟨root₁, table₁, lowered', hload₁, hlowers', hwarnings'⟩ := exists_lowers_of_compile h'
    obtain ⟨rfl, rfl⟩ : root = root₁ ∧ table = table₁ :=
      Prod.mk.inj (Except.ok.inj (hload.symm.trans hload₁))
    simp only [CompileOptions.Lowers, hplain, hoptimizing, Bool.false_eq_true, if_false, if_true]
      at hlowers hlowers'
    obtain ⟨stats, hoptimize⟩ := hlowers'
    rw [hwarnings, hwarnings', hlowers]
    have hkeeps := Node.keepsDivisions_optimize hoptimize
    exact List.Sublist.append (List.Sublist.refl _) hkeeps.divisions

/-- A division by zero inside of other operations, and two that are found by optimizing. -/
theorem sublist_divisionWarnings_nested :
    let source :=
      "class A{int f(boolean p){int a;int b;a=0;b=2/a;if(!(3*(1/0)<b+2)&&p)b=4/(0);return b;}}"
    ∃ raw root table root' stats c c', Node.ofRaw? raw = .ok root ∧
      optimize table root = .ok (root', stats) ∧
      (divisionWarnings root).Sublist (divisionWarnings root') ∧
      compile {} source = .ok c ∧ compile { optimize := true } source = .ok c' ∧
      c.warnings.length = 1 ∧ c'.warnings.length = 3 ∧ c.warnings.Sublist c'.warnings := by
  intro source
  let hasBlocks (unit : Ir.ClassUnit) : Bool :=
    unit.methods.all fun m => m.code.all Ir.Instr.hasBlock
  obtain ⟨root, table, h, hp⟩ := Accepted.exists_of_any source
    (fun root table => match lower table root, optimize table root with
      | .ok unit, .ok (root', _) => match lower table root' with
        | .ok unit' => hasBlocks unit && hasBlocks unit' &&
            (divisionWarnings root).length = 1 && (divisionWarnings root').length = 3
        | .error _ => false
      | _, _ => false)
    (by decide +kernel)
  obtain ⟨raw, -, hread⟩ := h.tree
  split at hp
  · rename_i unit root' stats hlower hoptimize
    split at hp
    · rename_i unit' hlower'
      simp only [Bool.and_eq_true, decide_eq_true_eq] at hp
      obtain ⟨⟨⟨hblocks, hblocks'⟩, hone⟩, hthree⟩ := hp
      have hlowers : CompileOptions.Lowers {} table root root := rfl
      have hlowers' : CompileOptions.Lowers { optimize := true } table root root' :=
        ⟨stats, hoptimize⟩
      obtain ⟨c, hc, -, hwarnings⟩ := h.exists_compile_of_lowers hlowers rfl hlower hblocks
      obtain ⟨c', hc', -, hwarnings'⟩ := h.exists_compile_of_lowers hlowers' rfl hlower' hblocks'
      obtain ⟨_, _, hoptimize', -, hsublist⟩ := sublist_divisionWarnings.1 raw root table hread
      cases hoptimize.symm.trans hoptimize'
      exact ⟨raw, root, table, root', stats, c, c', hread, hoptimize, hsublist, hc, hc',
        hwarnings ▸ hone, hwarnings' ▸ hthree,
        sublist_divisionWarnings.2 source {} { optimize := true } c c' rfl rfl hc hc'⟩
    · cases hp
  · cases hp

end MiniJava
