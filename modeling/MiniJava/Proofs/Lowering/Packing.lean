import MiniJava.Proofs.Compiled
import MiniJava.Proofs.Described
import MiniJava.Proofs.Lowering.Temporaries
import MiniJava.Proofs.Lowering.WellTyped

/-!
# Packed arguments

A method that takes a row of arguments has an array for its last parameter. If a call has just as
many arguments as the method has parameters and the last is an array, all are passed as they are.
Otherwise the arguments from the last parameter on are packed: they are stored in a fresh array,
each right behind the code for its value (`packed_of_lowerCall`).

The lowerings of the arguments run one after the other (`Ir.Lower.Runs`), those of packed ones
behind the temporary variable for the array has been handed out. So neither the arguments in front
of it nor those that are stored in it, which may be such calls themselves, have anything to do with
the array (`Scope.avoids_of_runs`).
-/

namespace MiniJava

open Ir

namespace Ir

/-! ## Values that avoid a variable -/

/-- Neither the operand nor its code has a variable of this name. -/
structure Value.Avoids (v : Value) (x : String) : Prop where
  code : ∀ i ∈ v.code, ∀ y ∈ i.vars, y.name ≠ x
  operand : ∀ y ∈ v.operand.vars, y.name ≠ x

/-- What is stored in an array, with the indices, in the order of the code. -/
def storesTo (array : Var) (code : Code) : List (Operand × Operand) :=
  code.filterMap fun
    | .arrayStore a index value => if a.name = array.name then some (index, value) else none
    | _ => none

/-- The code that stores values in an array from an index on, each right behind its own code. -/
def stores (array : Var) (index : Nat) : List Value → Code
  | [] => []
  | v :: vs =>
    v.code ++ .arrayStore array (.int (.ofNat index)) v.operand :: stores array (index + 1) vs

section Stores

variable {array : Var} {code p q : Code} {v : Value} {vs : List Value} {x : String}

theorem storesTo_append : storesTo array (p ++ q) = storesTo array p ++ storesTo array q :=
  List.filterMap_append

theorem storesTo_eq_nil (h : ∀ i ∈ code, ∀ y ∈ i.vars, y.name ≠ array.name) :
    storesTo array code = [] := by
  refine List.filterMap_eq_nil_iff.mpr fun i hi => ?_
  cases i with
  | arrayStore a index value => exact if_neg (h _ hi a List.mem_cons_self)
  | _ => rfl

theorem not_mem_destinations (h : ∀ i ∈ code, ∀ y ∈ i.vars, y.name ≠ x) :
    x ∉ destinations code := by
  intro hx
  obtain ⟨i, hi, hx⟩ := List.mem_filterMap.mp hx
  cases i with
  | assign dest value => exact h _ hi dest List.mem_cons_self (Option.some.inj hx)
  | _ => cases hx

theorem flatMap_avoids (h : ∀ v ∈ vs, v.Avoids x) :
    ∀ i ∈ vs.flatMap Value.code, ∀ y ∈ i.vars, y.name ≠ x := by
  intro i hi
  obtain ⟨v, hv, hi⟩ := List.mem_flatMap.mp hi
  exact (h v hv).code i hi

/-- Values that avoid the array are stored once each, with the indices in order. -/
theorem storesTo_stores (h : ∀ v ∈ vs, v.Avoids array.name) (index : Nat) :
    storesTo array (stores array index vs) =
      (vs.zipIdx index).map fun (v, j) => (.int (.ofNat j), v.operand) := by
  induction vs generalizing index with
  | nil => rfl
  | cons v vs ih =>
    obtain ⟨hv, hvs⟩ := List.forall_mem_cons.mp h
    rw [stores, storesTo_append, storesTo_eq_nil hv.code, List.nil_append, List.zipIdx_cons,
      List.map_cons, ← ih hvs (index + 1)]
    exact List.filterMap_cons_some (if_pos rfl)

/-- Storing assigns nothing but what the values do. -/
theorem destinations_stores (array : Var) (index : Nat) (vs : List Value) :
    destinations (stores array index vs) = destinations (vs.flatMap Value.code) := by
  induction vs generalizing index with
  | nil => rfl
  | cons v vs ih =>
    rw [stores, List.flatMap_cons, destinations_append, destinations_append, destinations_cons, ih]
    rfl

end Stores

/-! ## Lowerings one after the other -/

namespace Lower

/-- The lowerings run one after the other on the way from one supply to another, and make these
values. -/
inductive Runs : Supply → List (Lower Value) → List Value → Supply → Prop
  | nil (s : Supply) : Runs s [] [] s
  | cons {s s₁ s' : Supply} {x : Lower Value} {xs : List (Lower Value)} {v : Value}
    {vs : List Value} (hx : x.run s = .ok (v, s₁)) (h : Runs s₁ xs vs s') :
    Runs s (x :: xs) (v :: vs) s'

variable {s s' : Supply} {xs : List (Lower Value)} {vs : List Value}

theorem Runs.length_eq (h : Runs s xs vs s') : vs.length = xs.length := by
  induction h with
  | nil => rfl
  | cons _ _ ih => rw [List.length_cons, List.length_cons, ih]

theorem runs_of_inOrder {a : List Operand × Code} (h : (inOrder xs).run s = .ok (a, s')) :
    ∃ vs, Runs s xs vs s' ∧ a = (vs.map Value.operand, vs.flatMap Value.code) := by
  induction xs generalizing s a with
  | nil =>
    cases h
    exact ⟨[], .nil _, rfl⟩
  | cons x xs ih =>
    obtain ⟨v, s₁, hv, h⟩ := run_bind_eq_ok.mp h
    obtain ⟨b, s₂, hb, h⟩ := run_bind_eq_ok.mp h
    obtain ⟨rfl, rfl⟩ := run_pure_eq_ok.mp h
    obtain ⟨vs, hvs, rfl⟩ := ih hb
    exact ⟨v :: vs, .cons hv hvs, rfl⟩

theorem runs_of_storeFrom {array : Var} {index : Nat} {code : Code}
    (h : (storeFrom array index xs).run s = .ok (code, s')) :
    ∃ vs, Runs s xs vs s' ∧ code = stores array index vs := by
  induction xs generalizing s index code with
  | nil =>
    cases h
    exact ⟨[], .nil _, rfl⟩
  | cons x xs ih =>
    obtain ⟨v, s₁, hv, h⟩ := run_bind_eq_ok.mp h
    obtain ⟨rest, s₂, hrest, h⟩ := run_bind_eq_ok.mp h
    obtain ⟨rfl, rfl⟩ := run_pure_eq_ok.mp h
    obtain ⟨vs, hvs, rfl⟩ := ih hrest
    exact ⟨v :: vs, .cons hv hvs, rfl⟩

/-- The array is handed out first, and then the values are lowered. -/
theorem runs_of_packArray {t : IrType} {a : Var × Code} (h : (packArray t xs).run s = .ok (a, s')) :
    ∃ vs, Runs s.temp.2 xs vs s' ∧ a.1 = ⟨s.temp.1, t⟩ ∧
      a.2 = .assign a.1 (.newArray (.int (.ofNat xs.length)) t) :: stores a.1 0 vs := by
  obtain ⟨array, s₁, harray, h⟩ := run_bind_eq_ok.mp h
  obtain ⟨rfl, rfl⟩ := temp_eq_ok harray
  obtain ⟨code, s₂, hcode, h⟩ := run_bind_eq_ok.mp h
  obtain ⟨rfl, rfl⟩ := run_pure_eq_ok.mp h
  obtain ⟨vs, hvs, rfl⟩ := runs_of_storeFrom hcode
  exact ⟨vs, hvs, rfl, rfl⟩

end Lower

end Ir

/-! ### What lowerings avoid -/

namespace Scope

open Lower

variable {sc : Scope} {ctx : Context} {s s' : Supply} {x : Lower Value} {v : Value} {y : String}

/-- What is made on the way from one supply to another has no variable that may be issued behind,
and none but those of the method that may not be issued in front. -/
theorem avoids_of_gives (hx : GivesValue ctx sc.Knows x) (hreserves : sc.Reserves s.reserved)
    (hrun : x.run s = .ok (v, s')) (hy : y ∉ s.reserved) (hfree : ¬s.MayIssue y ∨ s'.MayIssue y) :
    v.Avoids y := by
  obtain ⟨temps, htemps, hin⟩ := hx s v s' hrun
  have hin := hin (fun z => sc.Knows z ∨ z ∈ temps) (fun _ => .inl) (fun _ => .inr)
  have hne (z : Var) (hz : sc.Knows z ∨ z ∈ temps) : z.name ≠ y := by
    rintro rfl
    rcases hz with ⟨b, hb, hvar, -⟩ | hz
    · exact hy (hreserves z.name b hb hvar)
    · obtain ⟨hmay, hnot⟩ := htemps.fresh z hz
      exact hfree.elim (· hmay) hnot
  exact ⟨fun i hi z hz => hne z ((hin.1 i hi).2 z hz), fun z hz => hne z (hin.2.2 z hz)⟩

theorem precedes_of_gives (hx : GivesValue ctx sc.Knows x) (hrun : x.run s = .ok (v, s')) :
    s.Precedes s' := by
  obtain ⟨temps, htemps, -⟩ := hx s v s' hrun
  exact htemps.precedes

section Runs

variable {xs : List (Lower Value)} {vs : List Value}

theorem precedes_of_runs (hxs : ∀ x ∈ xs, GivesValue ctx sc.Knows x) (h : Runs s xs vs s') :
    s.Precedes s' := by
  induction h with
  | nil s => exact .refl s
  | cons hx _ ih =>
    obtain ⟨hgives, hxs⟩ := List.forall_mem_cons.mp hxs
    exact (precedes_of_gives hgives hx).trans (ih hxs)

/-- **Lowerings have nothing to do with a variable that is handed out in front of them or
behind.** -/
theorem avoids_of_runs (hxs : ∀ x ∈ xs, GivesValue ctx sc.Knows x) (h : Runs s xs vs s')
    (hreserves : sc.Reserves s.reserved) (hy : y ∉ s.reserved)
    (hfree : ¬s.MayIssue y ∨ s'.MayIssue y) : ∀ v ∈ vs, v.Avoids y := by
  induction h with
  | nil => exact List.forall_mem_nil _
  | @cons s s₁ s' x xs v vs hx h ih =>
    obtain ⟨hgives, hxs⟩ := List.forall_mem_cons.mp hxs
    have hfirst := precedes_of_gives hgives hx
    have hrest := precedes_of_runs hxs h
    refine List.forall_mem_cons.mpr ⟨avoids_of_gives hgives hreserves hx hy ?_, ih hxs ?_ ?_ ?_⟩
    · exact hfree.imp_right hrest.mayIssue
    · exact hfirst.reserved ▸ hreserves
    · exact hfirst.reserved ▸ hy
    · exact hfree.imp_left (mt hfirst.mayIssue)

end Runs

/-! ## Calls -/

/-- How the receiver of a call is lowered. The name of an import needs no code. -/
def RunsTarget (sc : Scope) (receiver : Node) (s : Supply) (target : Value) (s' : Supply) : Prop :=
  match sc.staticReceiver? receiver with
  | some name => target = ⟨.classRef name, []⟩ ∧ s' = s
  | none => (sc.lowerExpr .object receiver).run s = .ok (target, s')

/-- The lowerings of the arguments of a call, each with what is demanded of it. -/
def loweredArguments (sc : Scope) (receiver : Node) (method : String) (arguments : List Node) :
    List (Lower Value) :=
  sc.lowerEach (sc.argumentDemands receiver method arguments) arguments

variable {receiver : Node} {method : String} {arguments : List Node} {t : IrType} {call : Call}
  {code : Code}

/-- A call is lowered by its receiver and then its arguments. -/
theorem runs_of_lowerCall {values : List (Lower Value)}
    (h : (sc.lowerCall t receiver method arguments (sc.lowerExpr .object receiver) values).run s =
      .ok ((call, code), s')) :
    ∃ target s₁ a, sc.RunsTarget receiver s target s₁ ∧
      (sc.lowerArguments receiver method arguments values).run s₁ = .ok (a, s') ∧
      call.target = target.operand ∧ call.arguments = a.1 ∧ code = target.code ++ a.2 := by
  unfold lowerCall at h
  cases hstatic : sc.staticReceiver? receiver with
  | some name =>
    have htarget : sc.RunsTarget receiver s ⟨.classRef name, []⟩ s := by
      rw [RunsTarget, hstatic]
      exact ⟨rfl, rfl⟩
    simp only [hstatic, pure_bind] at h
    obtain ⟨a, s₁, ha, h⟩ := run_bind_eq_ok.mp h
    obtain ⟨hcall, rfl⟩ := run_pure_eq_ok.mp h
    cases hcall
    exact ⟨_, s, a, htarget, ha, rfl, rfl, rfl⟩
  | none =>
    simp only [hstatic, pure_bind] at h
    obtain ⟨target, s₁, hrun, h⟩ := run_bind_eq_ok.mp h
    have htarget : sc.RunsTarget receiver s target s₁ := by
      rw [RunsTarget, hstatic]
      exact hrun
    obtain ⟨a, s₂, ha, h⟩ := run_bind_eq_ok.mp h
    obtain ⟨hcall, rfl⟩ := run_pure_eq_ok.mp h
    cases hcall
    exact ⟨target, s₁, a, htarget, ha, rfl, rfl, rfl⟩

/-- The last parameter of a method with so many of them gets an array as it is: the call has as many
arguments, and the last is an array. -/
def PassesArray (sc : Scope) (n : Nat) (receiver : Node) (method : String)
    (arguments : List Node) : Prop :=
  arguments.length = n ∧
    ∃ u, (sc.argumentTypes receiver method arguments).getLast? = some (some u) ∧ u.isArray = true

end Scope

namespace Ir

/-- The call passes these values as they are, behind its receiver. -/
structure PassedAsTheyAre (target : Value) (values : List Value) (call : Call) (code : Code) :
    Prop where
  operands : call.arguments = values.map Value.operand
  computed : code = target.code ++ values.flatMap Value.code

/-- The call passes some values as they are and then an array with the others. The array is assigned
once, behind the code for the first values, and then the others are stored in it, each once and
right behind its own code. Nothing else has to do with the array. -/
structure PassedInArray (target : Value) (front row : List Value) (array : Var) (call : Call)
    (code : Code) : Prop where
  avoided : ∀ v ∈ target :: (front ++ row), v.Avoids array.name
  operands : call.arguments = front.map Value.operand ++ [.var array]
  computed : code = target.code ++ (front.flatMap Value.code ++
    .assign array (.newArray (.int (.ofNat row.length)) array.type) :: stores array 0 row)
  assigned : (destinations code).count array.name = 1
  stored : storesTo array code = row.zipIdx.map fun (v, j) => (.int (.ofNat j), v.operand)

theorem passedInArray_of_avoids {target : Value} {front row : List Value} {array : Var}
    {call : Call} {code : Code} (havoids : ∀ v ∈ target :: (front ++ row), v.Avoids array.name)
    (harguments : call.arguments = front.map Value.operand ++ [.var array])
    (hcode : code = target.code ++ (front.flatMap Value.code ++
      .assign array (.newArray (.int (.ofNat row.length)) array.type) :: stores array 0 row)) :
    PassedInArray target front row array call code := by
  obtain ⟨htarget, hvalues⟩ := List.forall_mem_cons.mp havoids
  obtain ⟨hfront, hrow⟩ := List.forall_mem_append.mp hvalues
  refine ⟨havoids, harguments, hcode, ?_, ?_⟩
  · have hcount {p : Code} (hp : ∀ i ∈ p, ∀ y ∈ i.vars, y.name ≠ array.name) :
        (destinations p).count array.name = 0 :=
      List.count_eq_zero_of_not_mem (not_mem_destinations hp)
    rw [hcode, destinations_append, destinations_append, destinations_cons, destinations_stores,
      List.count_append, List.count_append, List.count_append, hcount htarget.code,
      hcount (flatMap_avoids hfront), hcount (flatMap_avoids hrow)]
    simp [Instr.dest?]
  · have hassign (rhs : Rhs) (p : Code) :
        storesTo array (.assign array rhs :: p) = storesTo array p := rfl
    rw [hcode, storesTo_append, storesTo_append, storesTo_eq_nil htarget.code,
      storesTo_eq_nil (flatMap_avoids hfront), hassign, storesTo_stores hrow]
    rfl

end Ir

namespace Scope

open Lower

/-- How a call of a method with `n` parameters, the last of which is an array of type `row` for a
row of arguments, is lowered on the way from one supply to another. All arguments are computed once,
in their order. If an array is passed, all are passed as they are, and else those from the last
parameter on in an array that has just been handed out. -/
structure PassesRow (sc : Scope) (n : Nat) (row : IrType) (receiver : Node) (method : String)
    (arguments : List Node) (s s' : Supply) (call : Call) (code : Code) : Prop where
  enough : n ≤ arguments.length + 1
  arity : call.arguments.length = n
  passed : ∃ target s₁ values, sc.RunsTarget receiver s target s₁ ∧
    call.target = target.operand ∧ values.length = arguments.length ∧
    (sc.PassesArray n receiver method arguments →
      Runs s₁ (sc.loweredArguments receiver method arguments) values s' ∧
        PassedAsTheyAre target values call code) ∧
    (¬sc.PassesArray n receiver method arguments → ∃ s₂ s₃ array,
      Runs s₁ ((sc.loweredArguments receiver method arguments).take (n - 1))
        (values.take (n - 1)) s₂ ∧
      (temp row).run s₂ = .ok (array, s₃) ∧
      Runs s₃ ((sc.loweredArguments receiver method arguments).drop (n - 1))
        (values.drop (n - 1)) s' ∧
      array.type = row ∧ ¬sc.table.Records array.name ∧ s.MayIssue array.name ∧
      (values.drop (n - 1)).length = arguments.length + 1 - n ∧
      PassedInArray target (values.take (n - 1)) (values.drop (n - 1)) array call code)

variable {sc : Scope} {c receiver : Node} {method : String} {arguments : List Node} {s s' : Supply}
  {ps : List Variable} {last : Variable} {t row : IrType} {call : Call} {code : Code} {ts : List Ty}

/-- What the checks say of a call to a method of the class. -/
theorem checkArguments_of_approves (h : sc.Approves c)
    (hcall : c.kind = .call receiver method arguments)
    (hlocal : sc.isLocalReceiver receiver = true) (hps : sc.table.params? method = some ps) :
    sc.checkArguments c receiver method arguments = [] := by
  have hcheck := h.namesHere
  simp only [checkNamesAt, hcall] at hcheck
  have hmethod : sc.table.hasMethod method = true := SymbolTable.hasMethod_of_params? hps
  have hreceiver := hlocal
  rw [isLocalReceiver, decide_eq_true_eq] at hreceiver
  simp only [checkCall, hreceiver] at hcheck
  split at hcheck
  · cases hcheck
  · simpa [hlocal, hmethod] using hcheck

/-- An array is passed if the last argument alone is for the last parameter and an array. -/
theorem passesArray_iff {n : Nat} (hn : 0 < n) (hcount : ts.length = arguments.length)
    (hts : sc.argumentTypes receiver method arguments = ts.map some) :
    sc.PassesArray n receiver method arguments ↔
      ∃ u, ts.drop (n - 1) = [u] ∧ u.isArray = true := by
  unfold PassesArray
  rw [hts, ← hcount, List.getLast?_map]
  constructor
  · rintro ⟨hlength, u, hu, harray⟩
    obtain ⟨_, hlast, hsome⟩ := Option.map_eq_some_iff.mp hu
    obtain rfl := Option.some.inj hsome
    obtain ⟨front, rfl⟩ := List.getLast?_eq_some_iff.mp hlast
    rw [List.length_append, List.length_singleton] at hlength
    exact ⟨_, List.drop_left' (by omega), harray⟩
  · rintro ⟨u, hu, harray⟩
    have hlength := congrArg List.length hu
    rw [List.length_drop, List.length_singleton] at hlength
    refine ⟨by omega, u, ?_, harray⟩
    rw [← List.take_append_drop (n - 1) ts, hu, List.getLast?_concat, Option.map_some]

/-- How many arguments are passed as they are, if any are packed, as `packing?` says it. -/
theorem packing?_eq_of_passesArray (hlocal : sc.isLocalReceiver receiver = true)
    (hrow : sc.table.isVarargs method = true) (hps : sc.table.params? method = some ps)
    (hlast : ps.getLast? = some last) (hlength : ps.length - 1 ≤ arguments.length)
    (hcount : ts.length = arguments.length)
    (hts : sc.argumentTypes receiver method arguments = ts.map some) :
    (sc.PassesArray ps.length receiver method arguments →
        sc.packing? receiver method arguments = none) ∧
      (¬sc.PassesArray ps.length receiver method arguments →
        sc.packing? receiver method arguments = some (ps.length - 1, .ofTy last.type)) := by
  have hpos : 0 < ps.length := by
    obtain ⟨front, rfl⟩ := List.getLast?_eq_some_iff.mp hlast
    simp
  obtain ⟨hwhole, hpacked⟩ := packing?_eq_of_isVarargs hlocal hrow hps hlast hlength hts
  rw [passesArray_iff hpos hcount hts]
  refine ⟨fun ⟨u, hu, harray⟩ => hwhole u hu harray, fun hnot => hpacked fun u hu => ?_⟩
  by_contra harray
  exact hnot ⟨u, hu, by simpa using harray⟩

/-- A call that passes the checks has an argument for each parameter in front of the row. -/
theorem length_le_of_checkArguments (hrow : sc.table.isVarargs method = true)
    (hps : sc.table.params? method = some ps)
    (hcheck : sc.checkArguments c receiver method arguments = []) :
    ps.length - 1 ≤ arguments.length := by
  simp only [checkArguments, hps, hrow, if_true, Option.getD_some] at hcheck
  split at hcheck
  · cases hcheck
  · rename_i hlength
    exact not_not.mp hlength

section Arguments

variable {values : List (Lower Value)} {a : List Operand × Code}

/-- Where nothing is packed, the arguments are lowered one after the other. -/
theorem runs_of_packing?_eq_none (hpacking : sc.packing? receiver method arguments = none)
    (h : (sc.lowerArguments receiver method arguments values).run s = .ok (a, s')) :
    ∃ vs, Runs s values vs s' ∧ a = (vs.map Value.operand, vs.flatMap Value.code) := by
  rw [lowerArguments_eq, hpacking] at h
  exact runs_of_inOrder h

/-- Between the arguments in front of the array and those in it the array is handed out. -/
theorem runs_of_packing?_eq_some {k : Nat}
    (hpacking : sc.packing? receiver method arguments = some (k, t))
    (h : (sc.lowerArguments receiver method arguments values).run s = .ok (a, s')) :
    ∃ front s₁ row, Runs s (values.take k) front s₁ ∧ Runs s₁.temp.2 (values.drop k) row s' ∧
      a.1 = front.map Value.operand ++ [.var ⟨s₁.temp.1, t⟩] ∧
      a.2 = front.flatMap Value.code ++
        .assign ⟨s₁.temp.1, t⟩ (.newArray (.int (.ofNat row.length)) t) ::
          stores ⟨s₁.temp.1, t⟩ 0 row := by
  rw [lowerArguments_eq, hpacking] at h
  obtain ⟨_, s₁, hinOrder, h⟩ := run_bind_eq_ok.mp h
  obtain ⟨⟨array, code⟩, s₂, hpack, h⟩ := run_bind_eq_ok.mp h
  obtain ⟨rfl, rfl⟩ := run_pure_eq_ok.mp h
  obtain ⟨front, hfront, rfl⟩ := runs_of_inOrder hinOrder
  obtain ⟨row, hrow, rfl, hcode⟩ := runs_of_packArray hpack
  refine ⟨front, s₁, row, hfront, hrow, rfl, ?_⟩
  rw [hrow.length_eq, ← hcode]

end Arguments

/-- What is lowered for the receiver of a call avoids what is handed out behind it. -/
theorem avoids_of_runsTarget {target : Value} {s₁ : Supply} {y : String}
    (hx : GivesValue sc.context sc.Knows (sc.lowerExpr .object receiver))
    (hreserves : sc.Reserves s.reserved) (h : sc.RunsTarget receiver s target s₁)
    (hy : s₁.MayIssue y) : s.Precedes s₁ ∧ target.Avoids y := by
  unfold RunsTarget at h
  split at h
  · obtain ⟨rfl, rfl⟩ := h
    exact ⟨.refl _, List.forall_mem_nil _, List.forall_mem_nil _⟩
  · have hprecedes := precedes_of_gives hx h
    exact ⟨hprecedes, avoids_of_gives hx hreserves h (hprecedes.mayIssue hy).1 (.inr hy)⟩

/-- A variable that is handed out between the arguments of a call has not been handed out before the
call, and neither its receiver nor its arguments have anything to do with it. -/
theorem avoids_of_packed {target : Value} {s₁ s₂ : Supply} {xs ys : List (Lower Value)}
    {front rest : List Value} (hx : GivesValue sc.context sc.Knows (sc.lowerExpr .object receiver))
    (hxs : ∀ x ∈ xs, GivesValue sc.context sc.Knows x)
    (hys : ∀ x ∈ ys, GivesValue sc.context sc.Knows x) (hreserves : sc.Reserves s.reserved)
    (htarget : sc.RunsTarget receiver s target s₁) (hfront : Runs s₁ xs front s₂)
    (hrest : Runs s₂.temp.2 ys rest s') :
    s.MayIssue s₂.temp.1 ∧ ∀ v ∈ target :: (front ++ rest), v.Avoids s₂.temp.1 := by
  have hprecedes := precedes_of_runs hxs hfront
  have hmay : s₁.MayIssue s₂.temp.1 := hprecedes.mayIssue s₂.mayIssue_temp
  obtain ⟨hprecedesTarget, havoidsTarget⟩ := avoids_of_runsTarget hx hreserves htarget hmay
  have hreserves₁ : sc.Reserves s₁.reserved := hprecedesTarget.reserved ▸ hreserves
  have havoidsFront := avoids_of_runs hxs hfront hreserves₁ hmay.1 (.inr s₂.mayIssue_temp)
  -- the supply behind the variable reserves the same names as the one in front of it
  have havoidsRest := avoids_of_runs hys hrest (hprecedes.reserved ▸ hreserves₁)
    s₂.mayIssue_temp.1 (.inl s₂.not_mayIssue_temp)
  exact ⟨hprecedesTarget.mayIssue hmay, List.forall_mem_cons.mpr
    ⟨havoidsTarget, List.forall_mem_append.mpr ⟨havoidsFront, havoidsRest⟩⟩⟩

/-- Where `packing?` tells whether an array is passed, a row is passed. -/
theorem passesRow_of_packing? {n : Nat} (hn : 0 < n) (hlength : n ≤ arguments.length + 1)
    (hcount : (sc.loweredArguments receiver method arguments).length = arguments.length)
    (hwhole : sc.PassesArray n receiver method arguments →
      sc.packing? receiver method arguments = none)
    (hpacked : ¬sc.PassesArray n receiver method arguments →
      sc.packing? receiver method arguments = some (n - 1, row))
    (htarget : GivesValue sc.context sc.Knows (sc.lowerExpr .object receiver))
    (hvalues : ∀ x ∈ sc.loweredArguments receiver method arguments,
      GivesValue sc.context sc.Knows x)
    (hs : s.reserved = (Supply.ofTable sc.table).reserved) (hreserves : sc.Reserves s.reserved)
    (hrun : (sc.lowerCall t receiver method arguments (sc.lowerExpr .object receiver)
      (sc.loweredArguments receiver method arguments)).run s = .ok ((call, code), s')) :
    sc.PassesRow n row receiver method arguments s s' call code := by
  obtain ⟨target, s₁, a, hrunsTarget, harguments, htargetOperand, hoperands, rfl⟩ :=
    runs_of_lowerCall hrun
  by_cases harray : sc.PassesArray n receiver method arguments
  · obtain ⟨values, hruns, rfl⟩ := runs_of_packing?_eq_none (hwhole harray) harguments
    have hlengthValues := hruns.length_eq.trans hcount
    refine ⟨hlength, ?_, target, s₁, values, hrunsTarget, htargetOperand, hlengthValues,
      fun _ => ⟨hruns, hoperands, rfl⟩, fun hnot => absurd harray hnot⟩
    rw [hoperands, List.length_map, hlengthValues, harray.1]
  · obtain ⟨front, s₂, rest, hfront, hrest, ha, hcode⟩ :=
      runs_of_packing?_eq_some (hpacked harray) harguments
    have hlengthFront : front.length = n - 1 := by
      rw [hfront.length_eq, List.length_take, hcount]
      omega
    have hlengthRest : rest.length = arguments.length + 1 - n := by
      rw [hrest.length_eq, List.length_drop, hcount]
      omega
    obtain ⟨hmay, havoids⟩ := avoids_of_packed htarget
      (fun x hx => hvalues x (List.mem_of_mem_take hx))
      (fun x hx => hvalues x (List.mem_of_mem_drop hx)) hreserves hrunsTarget hfront hrest
    have htake : (front ++ rest).take (n - 1) = front := List.take_left' hlengthFront
    have hdrop : (front ++ rest).drop (n - 1) = rest := List.drop_left' hlengthFront
    refine ⟨hlength, ?_, target, s₁, front ++ rest, hrunsTarget, htargetOperand, ?_,
      fun h => absurd h harray, fun _ => ⟨s₂, s₂.temp.2, ⟨s₂.temp.1, row⟩, ?_⟩⟩
    · rw [hoperands, ha, List.length_append, List.length_map, hlengthFront]
      exact Nat.sub_add_cancel hn
    · rw [List.length_append, hlengthFront, hlengthRest]
      omega
    · rw [htake, hdrop]
      refine ⟨hfront, rfl, hrest, rfl, fun hrecords => hmay.1 ?_, hmay, hlengthRest,
        passedInArray_of_avoids havoids (hoperands.trans ha) (congrArg (target.code ++ ·) hcode)⟩
      rw [hs]
      exact mem_reserved_ofTable.mpr hrecords

/-- **A call that passes the checks passes a row of arguments.** -/
theorem passesRow_of_approves (hplaced : sc.placed = none)
    (hclass : IsIdentifier sc.table.className) (hrows : sc.TakesRowsInArrays) (h : sc.Approves c)
    (hcall : c.kind = .call receiver method arguments)
    (hlocal : sc.isLocalReceiver receiver = true) (hrow : sc.table.isVarargs method = true)
    (hps : sc.table.params? method = some ps) (hlast : ps.getLast? = some last)
    (hs : s.reserved = (Supply.ofTable sc.table).reserved) (hreserves : sc.Reserves s.reserved)
    (hrun : (sc.lowerCall t receiver method arguments (sc.lowerExpr .object receiver)
      (sc.loweredArguments receiver method arguments)).run s = .ok ((call, code), s')) :
    sc.PassesRow ps.length (.ofTy last.type) receiver method arguments s s' call code := by
  have hchildren : c.children = receiver :: arguments := by
    rw [Node.children, hcall]
    rfl
  have hexpr : c.IsExpr := by
    rw [Node.IsExpr, Node.label, hcall]
    rfl
  have htyped (n : Node) (hn : n ∈ receiver :: arguments) (d : Ty) : ∃ t, sc.typeOf? d n = some t ∧
      GivesTyped sc.context sc.Knows (.ofTy t) (sc.lowerExpr d n) := by
    rw [← hchildren] at hn
    exact sc.lowerExpr_givesTyped hplaced hclass hrows (h.child hn)
      (h.wellFormed.isExpr_of_mem_children hexpr hn) d
  obtain ⟨hreceiver, harguments⟩ := List.forall_mem_cons.mp htyped
  have hvalue {t : IrType} {x : Lower Value} (hx : GivesTyped sc.context sc.Knows t x) :
      GivesValue sc.context sc.Knows x := hx.mono fun _ _ _ hv => hv.1
  obtain ⟨_, -, htarget⟩ := hreceiver .object
  have hdemands : (sc.argumentDemands receiver method arguments).length = arguments.length := by
    rw [argumentDemands, if_pos hlocal, List.length_map, List.length_range]
  obtain ⟨ts, hts, hgives⟩ := lowerEach_gives harguments hdemands
  have hvalues (x : Lower Value) (hx : x ∈ sc.loweredArguments receiver method arguments) :
      GivesValue sc.context sc.Knows x := by
    obtain ⟨_, -, hx⟩ := exists_of_forall₂ hgives hx
    exact hvalue hx
  have hcount : ts.length = arguments.length := by
    have hcount := congrArg List.length hts
    rwa [List.length_zipWith, hdemands, Nat.min_self, List.length_map, eq_comm] at hcount
  have hlowered : (sc.loweredArguments receiver method arguments).length = arguments.length := by
    rw [loweredArguments, ← hgives.length_eq, List.length_map, hcount]
  have hlength := length_le_of_checkArguments hrow hps
    (checkArguments_of_approves h hcall hlocal hps)
  have hpos : 0 < ps.length := List.length_pos_of_mem (List.mem_of_getLast? hlast)
  obtain ⟨hwhole, hpacked⟩ := packing?_eq_of_passesArray hlocal hrow hps hlast hlength hcount hts
  exact passesRow_of_packing? hpos (by omega) hlowered hwhole hpacked (hvalue htarget) hvalues hs
    hreserves hrun

end Scope

/-! ## Programs -/

/-- The last elements of lists that are related at each place are related. -/
theorem exists_getLast?_of_forall₂ {α β : Type} {R : α → β → Prop} {as : List α} {bs : List β}
    (h : List.Forall₂ R as bs) {a : α} (ha : as.getLast? = some a) :
    ∃ b, bs.getLast? = some b ∧ R a b := by
  obtain ⟨front, rfl⟩ := List.getLast?_eq_some_iff.mp ha
  have hreverse := List.forall₂_reverse_iff.mpr h
  rw [List.reverse_concat] at hreverse
  cases hbs : bs.reverse with
  | nil => rw [hbs] at hreverse; cases hreverse
  | cons b rest =>
    rw [hbs] at hreverse
    obtain ⟨hab, -⟩ := List.forall₂_cons.mp hreverse
    exact ⟨b, by rw [← List.head?_reverse, hbs, List.head?_cons], hab⟩

section Program

variable {source : String} {root root' m c receiver d p : Node} {table : SymbolTable}
  {options : CompileOptions} {head callee : MethodHead}
  {params locals body arguments ps ls bs : List Node} {x : String} {element : TypeExpr}
  {t : IrType} {s s' : Supply} {call : Call} {code : Code}

/-- **Rows of arguments are packed.** In what is lowered of an accepted program, this holds of each
call of a method of the class whose last parameter takes a row of arguments, whatever names have
been handed out before. -/
theorem packed_of_lowerCall (h : Accepted source root table)
    (hroot' : options.Lowers table root root') (hm : m ∈ root'.methods)
    (hkind : m.kind = .methodDecl head params locals body) (hc : c ∈ m.preorder)
    (hcall : c.kind = .call receiver callee.name arguments)
    (hlocal : (Scope.ofMethod table head).isLocalReceiver receiver = true)
    (hd : d ∈ root.methods) (hdecl : d.kind = .methodDecl callee ps ls bs)
    (hlast : ps.getLast? = some p) (hp : p.kind = .param x (.varargs element))
    (hs : s.reserved = (Supply.ofTable table).reserved)
    (hrun : ((Scope.ofMethod table head).lowerCall t receiver callee.name arguments
      ((Scope.ofMethod table head).lowerExpr .object receiver)
      ((Scope.ofMethod table head).loweredArguments receiver callee.name arguments)).run s =
        .ok ((call, code), s')) :
    (Scope.ofMethod table head).PassesRow ps.length (.ofTy (.ofExpr (.varargs element))) receiver
      callee.name arguments s s' call code := by
  obtain ⟨_, _, _, _, hkind', happroves⟩ := (h.sound_of_lowers hroot').1.approves hm
  cases hkind.symm.trans hkind'
  have hname : d.kind.declaredName? = some callee.name := by
    rw [hdecl]
    rfl
  have hdescribes := h.loaded.describes_of_find?
    (find?_of_nodup_declaredNames h.nodup_methods hd hname) hdecl
  obtain ⟨vs, ⟨hvs, -⟩, hdeclares⟩ := hdescribes.parameters
  obtain ⟨v, hv, type, hpv, htype⟩ := exists_getLast?_of_forall₂ hdeclares hlast
  cases hp.symm.trans hpv
  rw [hdeclares.length_eq, ← htype]
  exact Scope.passesRow_of_approves rfl h.isIdentifier_className (fun _ => h.isArray_of_isVarargs)
    (happroves.of_mem_preorder hc (preorder_infix_of_mem_preorder hc).subset) hcall hlocal
    (hdescribes.row.mpr ⟨p, v.name, element, hlast, hp⟩) hvs hv hs
    (hs ▸ reserves_ofTable table head) hrun

end Program

/-- A row with a call in it, which has an empty row. -/
theorem packed_of_lowerCall_nested : ∃ root table,
    Accepted "class A{int f(int a,int... b){return a;}int g(){return this.f(1,this.f(2),3);}}"
      root table ∧
    match root.methods with
    | [⟨_, _, .methodDecl _ [_, ⟨_, _, .param _ (.varargs _)⟩] _ _⟩,
        ⟨_, _, .methodDecl head _ _
          [⟨_, _, .returning (some ⟨_, _, .call receiver _ arguments⟩)⟩]⟩] =>
      ∃ s' call code, (Scope.ofMethod table head).PassesRow 2 (.array .int32) receiver "f" arguments
          (.ofTable table) s' call code ∧
        call.arguments = [.int 1, .var ⟨"tmp0", .array .int32⟩] ∧
        destinations code = ["tmp0", "tmp1", "tmp2"] ∧
        storesTo ⟨"tmp0", .array .int32⟩ code =
          [(.int 0, .var ⟨"tmp2", .int32⟩), (.int 1, .int 3)]
    | _ => False := by
  obtain ⟨root, table, h, hp⟩ := Accepted.exists_of_any
    "class A{int f(int a,int... b){return a;}int g(){return this.f(1,this.f(2),3);}}"
    (fun root table => match root.methods with
      | [⟨_, _, .methodDecl callee [_, ⟨_, _, .param _ (.varargs element)⟩] _ _⟩,
          ⟨_, _, .methodDecl head _ _
            [⟨_, _, .returning (some ⟨_, _, .call receiver method arguments⟩)⟩]⟩] =>
        let sc := Scope.ofMethod table head
        let lowered := (sc.lowerCall .int32 receiver method arguments
          (sc.lowerExpr .object receiver)
          (sc.loweredArguments receiver method arguments)).run (.ofTable table)
        lowered.toOption.any fun r => callee.name = method ∧ method = "f" ∧ element = .int ∧
          sc.isLocalReceiver receiver = true ∧
          r.1.1.arguments = [.int 1, .var ⟨"tmp0", .array .int32⟩] ∧
          destinations r.1.2 = ["tmp0", "tmp1", "tmp2"] ∧
          storesTo ⟨"tmp0", .array .int32⟩ r.1.2 =
            [(.int 0, .var ⟨"tmp2", .int32⟩), (.int 1, .int 3)]
      | _ => false)
    (by decide +kernel)
  split at hp
  · rename_i callee _ _ _ _ element _ _ _ _ head _ _ _ _ _ _ receiver method arguments hmethods
    obtain ⟨⟨⟨call, code⟩, s'⟩, hrun, hp⟩ := exists_eq_ok_of_any hp
    obtain ⟨rfl, hname, rfl, hlocal, harguments, hdestinations, hstores⟩ := of_decide_eq_true hp
    have hroot : CompileOptions.Lowers {} table root root := rfl
    have hd := (congrArg (_ ∈ ·) hmethods).mpr List.mem_cons_self
    have hm := (congrArg (_ ∈ ·) hmethods).mpr mem_second
    have hpasses := packed_of_lowerCall h hroot hm rfl
      (Node.mem_preorder_of_mem_children (List.mem_append_right _ List.mem_cons_self)
        (Node.mem_preorder_of_mem_children List.mem_cons_self (Node.mem_preorder_self _)))
      rfl hlocal hd rfl rfl rfl rfl hrun
    rw [hname] at hpasses
    refine ⟨root, table, h, ?_⟩
    rw [hmethods]
    exact ⟨s', call, code, hpasses, harguments, hdestinations, hstores⟩
  · cases hp

end MiniJava
