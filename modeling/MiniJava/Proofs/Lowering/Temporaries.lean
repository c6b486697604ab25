import MiniJava.Proofs.Lowering.Written

/-!
# Temporary variables

The names of temporary variables are handed out by one supply, which reserves the names of the
program. So no name is handed out twice, and none means anything else. In the code of a program each
of them is assigned once, or twice if it is the result of `&&` or `||`; and in each method no path
reads one that it has not assigned (`temporaries_of_lower`).
-/

namespace MiniJava

open Ir

/-- The name of a field, or of a parameter or local variable of a method. -/
def SymbolTable.Records (t : SymbolTable) (x : String) : Prop :=
  ∃ v, (v ∈ t.fields ∨ ∃ method, v ∈ (t.params? method).getD [] ∨ v ∈ (t.locals? method).getD []) ∧
    v.name = x

namespace Ir

variable {t : SymbolTable} {s s' : Supply} {x : String}

/-- The names of a program are reserved. -/
theorem mem_reserved_ofTable : x ∈ (Supply.ofTable t).reserved ↔ t.Records x := by
  constructor
  · intro hx
    obtain ⟨v, hv, rfl⟩ := List.mem_map.mp hx
    rcases List.mem_append.mp hv with hv | hv
    · exact ⟨v, .inl hv, rfl⟩
    · obtain ⟨method, -, hv⟩ := List.mem_flatMap.mp hv
      exact ⟨v, .inr ⟨method, List.mem_append.mp hv⟩, rfl⟩
  · rintro ⟨v, hv | ⟨method, hv⟩, rfl⟩
    · exact List.mem_map_of_mem (List.mem_append_left _ hv)
    · exact mem_reserved_of_method (List.mem_append.mpr hv)

/-! ## Methods -/

/-- The code of a method is ready for what is none of its variables. -/
theorem ready_of_lowerMethod {n : Node} {m : Method}
    (h : (lowerMethod (Scope.ofMethod t) n).run s = .ok (m, s')) (hx : ¬t.Records x) :
    Ready x m.code [] := by
  obtain ⟨head, params, locals, body, code, -, hcode, -, -, -, hm⟩ := lowerMethod_eq_ok h
  have hfree : ∀ b, (Scope.ofMethod t head).lookup? x = some b → b.isMethodVariable = false := by
    intro b hb
    by_contra hvar
    exact hx (mem_reserved_ofTable.mp (reserves_ofTable t head x b hb (by simpa using hvar)))
  have hready : Ready x code [] :=
    (Scope.lowerStmts_ready fun n _ => Scope.lowerStmt_ready hfree n).of_run hcode
  rcases hm with ⟨hm, -⟩ | ⟨hm, -⟩
  · rw [hm]
    exact hready.concat rfl (List.nil_subset _) nofun
  · rw [hm]
    exact hready

/-- A path through code that is ready assigns what it reads. -/
theorem exists_dest?_of_passes {code rest : Code} {is : List Instr} {i : Instr}
    (h : Ready x code []) (hnodup : (labels code).Nodup)
    (hpath : controlFlow.Passes code code is (i :: rest)) (hx : x ∈ i.reads) :
    ∃ j ∈ is, j.dest? = some x := by
  by_contra hnone
  refine h.defined hnodup i ⟨rest, ?_⟩ hx
  refine hpath.leads (G := avoiding x) rfl rfl fun j hj hfalls => ?_
  have hdest : j.dest? ≠ some x := fun hdest => hnone ⟨j, hj, hdest⟩
  simp only [avoiding, Bool.and_eq_true, bne_iff_ne]
  exact ⟨hfalls, hdest⟩

theorem lowerMethod_writes {ds : List String} {twice : String → Prop} (n : Node)
    (hs : s.reserved = (Supply.ofTable t).reserved) :
    Leaves (s.Writes · ds twice) (lowerMethod (Scope.ofMethod t) n)
      fun m => s.Wrote ds twice m.code := by
  intro s₁ hs₁ m s₂ hrun
  obtain ⟨head, params, locals, body, code, -, hcode, -, -, -, hm⟩ := lowerMethod_eq_ok hrun
  have hwrote : s.Wrote ds twice code s₂ := Scope.lowerStmts_writes
    (fun n _ => Scope.lowerStmt_writes (reserves_ofTable t head) n) s ds twice hs s₁ hs₁ code s₂ hcode
  rcases hm with ⟨hm, -⟩ | ⟨hm, -⟩
  · rw [hm]
    exact hwrote.append rfl
  · rw [hm]
    exact hwrote

/-- The methods of a program assign one after the other. -/
theorem mapM_lowerMethod_writes {ds : List String} {twice : String → Prop} (ns : List Node)
    (hs : s.reserved = (Supply.ofTable t).reserved) :
    Leaves (s.Writes · ds twice) (ns.mapM (lowerMethod (Scope.ofMethod t))) fun ms s' =>
      s.Writes s' (ds ++ ms.flatMap fun m => destinations m.code)
        fun d => twice d ∨ ∃ m ∈ ms, HasShortCircuit d m.code := by
  induction ns generalizing ds twice with
  | nil => exact .pure fun s' h => h.mono (fun d _ => by simp) fun d => .inl
  | cons n ns ih =>
    rw [List.mapM_cons]
    refine (lowerMethod_writes n hs).bind fun m => ih.bind fun ms => .pure fun s' h => ?_
    refine h.mono (fun d _ => ?_) fun d hd => ?_
    · rw [List.flatMap_cons, List.append_assoc]
    · rcases hd with (hd | hd) | ⟨m', hm', hd⟩
      · exact .inl hd
      · exact .inr ⟨m, List.mem_cons_self, hd⟩
      · exact .inr ⟨m', List.mem_cons_of_mem m hm', hd⟩

end Ir

/-! ## Programs -/

/-- These names are temporary variables of a unit: they differ, mean nothing else, are assigned once
or twice, and no path reads one that it has not assigned. Nothing else is assigned but variables of
the program. -/
structure Ir.ClassUnit.Temporaries (unit : ClassUnit) (t : SymbolTable) (xs : List String) :
    Prop where
  nodup : xs.Nodup
  fresh : ∀ x ∈ xs, ¬t.Records x
  assigned : ∀ m ∈ unit.methods, ∀ x ∈ destinations m.code, x ∈ xs ∨ t.Records x
  once : ∀ x ∈ xs, (¬∃ m ∈ unit.methods, HasShortCircuit x m.code) →
    (unit.methods.flatMap fun m => destinations m.code).count x ≤ 1
  twice : ∀ x ∈ xs, (∃ m ∈ unit.methods, HasShortCircuit x m.code) →
    (unit.methods.flatMap fun m => destinations m.code).count x = 2
  defined : ∀ m ∈ unit.methods, ∀ x ∈ xs, ∀ is i rest,
    controlFlow.Passes m.code m.code is (i :: rest) → x ∈ i.reads → ∃ j ∈ is, j.dest? = some x

/-- **Temporary variables are fresh and assigned before they are read.** -/
theorem temporaries_of_lower {table : SymbolTable} {root : Node} {unit : ClassUnit}
    (h : lower table root = .ok unit) :
    ∃ xs s', (root.methods.mapM (lowerMethod (Scope.ofMethod table))).run (.ofTable table) =
        .ok (unit.methods, s') ∧
      (Supply.ofTable table).Hands xs s' ∧ unit.Temporaries table xs := by
  obtain ⟨s', hrun⟩ := lower_eq_ok h
  have hwrites := mapM_lowerMethod_writes root.methods rfl _ (Supply.Writes.refl _) _ _ hrun
  obtain ⟨xs, hxs⟩ := hwrites.hands
  have hfresh : ∀ x ∈ xs, ¬table.Records x := fun x hx hrecords =>
    hxs.not_mem_reserved hx (mem_reserved_ofTable.mpr hrecords)
  refine ⟨xs, s', hrun, hxs, hxs.nodup, hfresh, fun m hm x hx => ?_, fun x hx hnone => ?_,
    fun x hx hshort => ?_, fun m hm x hx is i rest hpath hreads => ?_⟩
  · have hmem : x ∈ unit.methods.flatMap fun m => destinations m.code :=
      List.mem_flatMap.mpr ⟨m, hm, hx⟩
    rcases hwrites.issued x hmem with hreserved | hissued
    · exact .inr (mem_reserved_ofTable.mp hreserved)
    · exact .inl (hxs.mem_iff.mpr hissued)
  · exact (hwrites.count_le x (hxs.not_mem_reserved hx)).2 (by simpa using hnone)
  · have hle := (hwrites.count_le x (hxs.not_mem_reserved hx)).1
    obtain ⟨m, hm, hshort⟩ := hshort
    have hsublist : (destinations m.code).Sublist
        (unit.methods.flatMap fun m => destinations m.code) :=
      List.sublist_flatten_of_mem (List.mem_map_of_mem hm)
    exact Nat.le_antisymm hle (hshort.two_le_count.trans (hsublist.count_le x))
  · obtain ⟨n, -, s₁, s₂, hs, hm⟩ := exists_of_forall₂ (forall₂_lowerMethod h) hm
    exact exists_dest?_of_passes (ready_of_lowerMethod hm (hfresh x hx))
      (nodup_labels_of_lowerMethod hs hm) hpath hreads

/-- Conditions inside each other in a loop, and a parameter with the name of a temporary variable. -/
theorem temporaries_of_lower_reserved : ∃ root table unit,
    Accepted "class A{int f(int a,boolean tmp1){while(a<9&&!tmp1||a<3){if(tmp1&&a<5)a=a+1;else a=a*2;}return a;}}"
      root table ∧ lower table root = .ok unit ∧ table.Records "tmp1" ∧
    (unit.methods.map fun m => destinations m.code) =
      [["tmp3", "tmp2", "tmp4", "tmp2", "tmp5", "tmp0", "tmp0", "tmp6", "tmp7", "tmp6", "a", "a"]] ∧
    ∃ xs s', (root.methods.mapM (lowerMethod (Scope.ofMethod table))).run (.ofTable table) =
        .ok (unit.methods, s') ∧
      (Supply.ofTable table).Hands xs s' ∧ unit.Temporaries table xs := by
  obtain ⟨root, table, h, hp⟩ := Accepted.exists_of_any
    "class A{int f(int a,boolean tmp1){while(a<9&&!tmp1||a<3){if(tmp1&&a<5)a=a+1;else a=a*2;}return a;}}"
    (fun root table => match lower table root with
      | .ok unit => "tmp1" ∈ (Supply.ofTable table).reserved ∧
          (unit.methods.map fun m => destinations m.code) = [["tmp3", "tmp2", "tmp4", "tmp2",
            "tmp5", "tmp0", "tmp0", "tmp6", "tmp7", "tmp6", "a", "a"]]
      | .error _ => false)
    (by decide +kernel)
  split at hp
  · rename_i unit hlower
    obtain ⟨hreserved, hdestinations⟩ := of_decide_eq_true hp
    exact ⟨root, table, unit, h, hlower, mem_reserved_ofTable.mp hreserved, hdestinations,
      temporaries_of_lower hlower⟩
  · cases hp

end MiniJava
