import MiniJava.Proofs.Lowering.Typed
import MiniJava.Proofs.Typing.Sites

/-!
# What the checks say of types

The checks compare types of the program, and three-address code has types of its own. A value that the
checks let a variable take fits it there (`fits_of_assignable`). The elements of an array literal fit
the array (`Scope.elements_fit`), and the arguments of a call to a method of the class fit its
parameters, also where the last ones are packed into an array (`Scope.arguments_fit`).
-/

namespace MiniJava

open Ir

theorem Ty.eq_int_of_isInt {t : Ty} (h : t.isInt = true) : t = .int := by
  obtain ⟨name, isArray⟩ := t
  simp only [isInt, Bool.and_eq_true, Bool.not_eq_true', beq_iff_eq] at h
  obtain ⟨rfl, rfl⟩ := h
  rfl

theorem Ir.IrType.Fits.trans {t u v : IrType} (h : t.Fits u) (h' : u.Fits v) : t.Fits v := by
  rcases h with rfl | ⟨ht, hu, htu⟩
  · exact h'
  · rcases h' with rfl | ⟨_, hv, huv⟩
    · exact .inr ⟨ht, hu, htu⟩
    · exact .inr ⟨ht, hv, htu.trans huv⟩

/-- What is no primitive type is that of references. -/
theorem Ir.IrType.isReference_ofTy {t : Ty} (h : t.isPrimitiveName = false) :
    (IrType.ofTy t).isReference = true ∧ (IrType.ofTy t).isArray = t.isArray := by
  obtain ⟨name, isArray⟩ := t
  simp only [Ty.isPrimitiveName, Bool.or_eq_false_iff, beq_eq_false_iff_ne] at h
  obtain ⟨⟨hint, hboolean⟩, hvoid⟩ := h
  cases isArray with
  | true => exact ⟨rfl, rfl⟩
  | false =>
    simp only [ofTy, Bool.false_eq_true, if_false, ofName]
    split <;> first | contradiction | exact ⟨rfl, rfl⟩

theorem Ir.IrType.isArray_ofTy (t : Ty) : (IrType.ofTy t).isArray = t.isArray := by
  obtain ⟨name, isArray⟩ := t
  cases isArray with
  | true => rfl
  | false =>
    simp only [ofTy, Bool.false_eq_true, if_false, ofName]
    split <;> rfl

theorem Ir.IrType.ofTy_ne_void {t : Ty} (h : t.isVoid = false) : IrType.ofTy t ≠ .void := by
  obtain ⟨name, isArray⟩ := t
  cases isArray with
  | true => exact fun h => nomatch h
  | false =>
    simp only [Ty.isVoid, Bool.not_false, Bool.true_and, beq_eq_false_iff_ne] at h
    simp only [ofTy, Bool.false_eq_true, if_false, ofName]
    split <;> first | contradiction | exact fun h => nomatch h

/-- Only the type of instances of a class becomes that of the class. -/
theorem Ir.IrType.eq_ofClass_of_ofTy {t : Ty} {name : String}
    (h : IrType.ofTy t = .classRef name) : t = .ofClass name := by
  obtain ⟨name', isArray⟩ := t
  cases isArray with
  | true => cases h
  | false =>
    simp only [ofTy, Bool.false_eq_true, if_false, ofName] at h
    split at h <;> cases h
    rfl

/-- A variable that takes a value by the checks takes it in three-address code. -/
theorem fits_of_assignable {table : SymbolTable} {expected found : Ty}
    (h : table.assignable expected found = true) :
    (IrType.ofTy expected).Fits (IrType.ofTy found) := by
  unfold SymbolTable.assignable at h
  rw [Bool.or_eq_true, decide_eq_true_eq] at h
  rcases h with rfl | h
  · exact .inl rfl
  · unfold SymbolTable.trusts at h
    split at h
    · cases h
    · rename_i harray
      split at h
      · cases h
      · rename_i hprimitive
        simp only [bne_iff_ne, ne_eq, not_not] at harray
        simp only [Bool.or_eq_true, not_or, Bool.not_eq_true] at hprimitive
        have hexpected := IrType.isReference_ofTy hprimitive.1
        have hfound := IrType.isReference_ofTy hprimitive.2
        exact .inr ⟨hexpected.1, hfound.1, by rw [hexpected.2, hfound.2, harray]⟩

namespace Scope

open Lower

variable {sc : Scope} {n : Node}

/-! ## Expressions -/

/-- The operands of an operator have one type, which the operator takes. -/
theorem types_of_checkOperands {op : BinaryOp} {left right : Node} {l r : Ty}
    (hl : sc.typeOf? (sc.operandDemands op left right).1 left = some l)
    (hr : sc.typeOf? (sc.operandDemands op left right).2 right = some r)
    (h : sc.checkOperands n op left right = []) :
    l = r ∧ (op.isLogical = true → l = .boolean) ∧
      (op.isLogical = false → op.isEquality = false → l = .int) ∧
      l.isArray = false ∧ l.isVoid = false := by
  unfold checkOperands at h
  simp only [hl, hr] at h
  split at h
  · cases h
  · rename_i heq
    simp only [ite_eq_left_iff, reduceCtorEq, imp_false, not_not] at h
    simp only [ne_eq, Bool.or_eq_true, decide_eq_true_eq, not_or, not_not, Bool.not_eq_true] at heq
    have hboolean (hop : op.isLogical = true) : l = .boolean := by
      refine Ty.eq_boolean_of_isBoolean ?_
      cases op <;> cases hop <;> exact h
    have hint (hop : op.isLogical = false) (hop' : op.isEquality = false) : l = .int := by
      refine Ty.eq_int_of_isInt ?_
      cases op <;> cases hop <;> cases hop' <;> exact h
    refine ⟨heq.1, hboolean, hint, heq.2, ?_⟩
    by_cases hop : op.isLogical = true
    · rw [hboolean hop]
      rfl
    · by_cases hop' : op.isEquality = true
      · cases op <;> cases hop' <;> simpa [BinaryOp.isArithmetic, BinaryOp.isRelational,
          BinaryOp.isLogical] using h
      · rw [hint (by simpa using hop) (by simpa using hop')]
        rfl


theorem eq_int_of_checkIndex {index : Node} {t : Ty} (ht : sc.typeOf? .int index = some t)
    (hcheck : sc.checkIndex index = []) : t = .int := by
  simp only [checkIndex, ht, ite_eq_left_iff, reduceCtorEq, imp_false, not_not] at hcheck
  exact Ty.eq_int_of_isInt hcheck

/-! ### Rows of expressions -/

/-- Where neighbours are equal, all are. -/
theorem eq_head_of_zip_tail {α : Type} [DecidableEq α] {a : α} {as : List α}
    (h : (((a :: as).zip as).any fun (x, y) => x ≠ y) = false) : ∀ x ∈ as, x = a := by
  induction as generalizing a with
  | nil => simp
  | cons b bs ih =>
    simp only [List.zip_cons_cons, List.any_cons, Bool.or_eq_false_iff, decide_eq_false_iff_not,
      ne_eq, not_not] at h
    obtain ⟨rfl, h⟩ := h
    exact List.forall_mem_cons.mpr ⟨rfl, ih h⟩

/-- The elements of an array literal fit the array. -/
theorem elements_fit {elements : List Node} {ts : List Ty} (hplaced : sc.placed = none)
    (hts : elements.zipWith (fun n d => sc.typeOf? d n) (sc.elementDemands elements) = ts.map some)
    (hcheck : sc.checkElements n elements = []) (d : Ty) (i : Nat) (p : Position) :
    let t := ((sc.typeOf? d ⟨i, p, .arrayLit elements⟩).map IrType.ofTy).getD .intArray
    t.isArray = true ∧ ∀ t' ∈ ts.map IrType.ofTy, t.element.Fits t' := by
  cases elements with
  | nil =>
    obtain rfl : ts = [] := by simpa using hts.symm
    exact ⟨rfl, by simp⟩
  | cons e es =>
    cases ts with
    | nil => simp [elementDemands] at hts
    | cons u us =>
      have hfirst : sc.typeOf? (sc.firstKnown es) e = some u := by
        have he : sc.typeOf? (sc.firstKnown (e :: es)) e = some u := by
          simp only [elementDemands, List.length_cons, List.replicate_succ, List.zipWith_cons_cons,
            List.map_cons, List.cons.injEq] at hts
          exact hts.1
        rwa [sc.typeOf?_firstKnown] at he
      unfold checkElements at hcheck
      rw [hts] at hcheck
      simp only [List.map_cons, List.tail_cons, ite_eq_right_iff, reduceCtorEq, imp_false,
        Bool.or_eq_true, not_or, Bool.not_eq_true, List.any_cons, Option.map_some,
        Option.getD_some] at hcheck
      obtain ⟨hmixed, hnested, -⟩ := hcheck
      have hall := eq_head_of_zip_tail hmixed
      have htype : sc.typeOf? d ⟨i, p, .arrayLit (e :: es)⟩ = some u.array := by
        simp only [typeOf?, hplaced, Option.isSome_none, Bool.false_eq_true, if_false, hfirst,
          Option.map_some]
      simp only [htype, Option.map_some, Option.getD_some, List.forall_mem_map]
      refine ⟨rfl, fun v hv => .inl ?_⟩
      obtain rfl : v = u := by
        rcases List.mem_cons.mp hv with rfl | hv
        · rfl
        · simpa using hall (some v) (List.mem_map_of_mem hv)
      obtain ⟨name, isArray⟩ := v
      obtain rfl : isArray = false := hnested
      rfl

/-! ### Arguments -/

theorem fits_of_checkArgument {method : String} {expected found : Ty}
    (h : sc.checkArgument n method expected (some found) = []) :
    (IrType.ofTy expected).Fits (IrType.ofTy found) := by
  simp only [checkArgument, ite_eq_left_iff, reduceCtorEq, imp_false, not_not] at h
  exact fits_of_assignable h

/-- Each argument fits the parameter at its place. -/
theorem forall₂_fits_of_checkArgument {method : String} {ps : List Variable} {us : List Ty}
    (hlength : us.length ≤ ps.length)
    (h : (ps.zip (us.map some)).flatMap (fun (p, found) => sc.checkArgument n method p.type found) =
      []) :
    List.Forall₂ IrType.Fits ((ps.take us.length).map fun p => .ofTy p.type)
      (us.map IrType.ofTy) := by
  induction us generalizing ps with
  | nil => exact .nil
  | cons u us ih =>
    cases ps with
    | nil => cases hlength
    | cons p ps =>
      simp only [List.map_cons, List.zip_cons_cons, List.flatMap_cons,
        List.append_eq_nil_iff] at h
      exact .cons (fits_of_checkArgument h.1) (ih (Nat.le_of_succ_le_succ hlength) h.2)

/-- The arguments for the last parameter are one array that fits it, or all fit its elements. -/
theorem fits_of_checkRow {method : String} {last : Ty} {us : List Ty}
    (h : sc.checkRow n method last (us.map some) = []) :
    (∃ u, us = [u] ∧ u.isArray = true ∧ (IrType.ofTy last).Fits (IrType.ofTy u)) ∨
      (∀ u, us = [u] → u.isArray = false) ∧
        ∀ u ∈ us, (IrType.ofTy last.element).Fits (IrType.ofTy u) := by
  have heach (h : (us.map some).flatMap (sc.checkArgument n method last.element) = []) :
      ∀ u ∈ us, (IrType.ofTy last.element).Fits (IrType.ofTy u) := fun u hu =>
    fits_of_checkArgument (List.flatMap_eq_nil_iff.mp h _ (List.mem_map_of_mem hu))
  unfold checkRow at h
  match us with
  | [] => exact .inr ⟨by simp, by simp⟩
  | [u] =>
    by_cases harray : u.isArray = true
    · simp only [List.map_cons, List.map_nil, harray, if_true] at h
      exact .inl ⟨u, rfl, harray, fits_of_checkArgument h⟩
    · simp only [List.map_cons, List.map_nil, harray, Bool.false_eq_true, if_false] at h
      refine .inr ⟨fun v hv => ?_, heach h⟩
      cases hv
      simpa using harray
  | u :: v :: us => exact .inr ⟨by simp, heach h⟩

/-- Whether the arguments of a method that takes a row of them are packed shows in their types. -/
theorem packing?_eq_of_isVarargs {receiver : Node} {method : String} {arguments : List Node}
    {ps : List Variable} {last : Variable} {ts : List Ty}
    (hlocal : sc.isLocalReceiver receiver = true) (hrow : sc.table.isVarargs method = true)
    (hps : sc.table.params? method = some ps) (hlast : ps.getLast? = some last)
    (hlength : ps.length - 1 ≤ arguments.length)
    (hts : sc.argumentTypes receiver method arguments = ts.map some) :
    (∀ u, ts.drop (ps.length - 1) = [u] → u.isArray = true →
        sc.packing? receiver method arguments = none) ∧
      ((∀ u, ts.drop (ps.length - 1) = [u] → u.isArray = false) →
        sc.packing? receiver method arguments = some (ps.length - 1, .ofTy last.type)) := by
  generalize hk : ps.length - 1 = k at *
  have hsingle (a : Node) (ha : arguments.drop k = [a]) :
      (ts.drop k).map some = [sc.typeOf? (sc.parameterDemand method k) a] := by
    have hcount : arguments.length = k + 1 := by
      have hcount := congrArg List.length ha
      simp only [List.length_drop, List.length_singleton] at hcount
      omega
    rw [List.map_drop, ← hts, argumentTypes, argumentDemands, if_pos hlocal, List.drop_zipWith, ha,
      hcount, List.range_succ, List.map_append, List.drop_left' (by simp)]
    rfl
  have hcount : (ts.drop k).length = (arguments.drop k).length := by
    have hcount := congrArg List.length hts
    simp only [argumentTypes, argumentDemands, if_pos hlocal, List.length_zipWith, List.length_map,
      List.length_range, Nat.min_self] at hcount
    simp [hcount]
  unfold packing?
  simp only [hlocal, hrow, Bool.and_self, if_true, hps, Option.getD_some, hk,
    Nat.min_eq_left hlength, hlast, Option.map_some]
  constructor
  · intro u hu harray
    obtain ⟨a, ha⟩ := List.length_eq_one_iff.mp (hcount.symm.trans (by rw [hu]; rfl))
    have htype := hsingle a ha
    rw [hu] at htype
    simp only [List.map_cons, List.map_nil, List.cons.injEq, and_true] at htype
    simp only [ha, ← htype, Option.map_some, harray, Option.getD_some, if_true]
  · intro hnone
    match ha : arguments.drop k with
    | [] => rfl
    | [a] =>
      have htype := hsingle a ha
      obtain ⟨u, hu⟩ := List.length_eq_one_iff.mp (hcount.trans (by rw [ha]; rfl))
      rw [hu] at htype
      simp only [List.map_cons, List.map_nil, List.cons.injEq, and_true] at htype
      simp [← htype, hnone u hu]
    | _ :: _ :: _ => rfl

section Called

variable {receiver : Node} {method : String} {arguments : List Node} {ps : List Variable}
  {ts : List Ty}

/-- The parameters of a method have the types that its signature tells. -/
theorem params?_context (hps : sc.table.params? method = some ps) :
    sc.context.params? method = some (ps.map fun p => .ofTy p.type) := by
  simp [context, hps]

/-- The arguments of a method without a row fit its parameters. -/
theorem fit_of_not_isVarargs (hrow : ¬sc.table.isVarargs method = true)
    (hps : sc.table.params? method = some ps)
    (hts : sc.argumentTypes receiver method arguments = ts.map some)
    (hcount : ts.length = arguments.length)
    (hcheck : sc.checkArguments n receiver method arguments = []) :
    sc.RowFits receiver method arguments (ts.map IrType.ofTy) ∧
      sc.ArgumentsFit receiver method arguments (ts.map IrType.ofTy) := by
  have hpacking : sc.packing? receiver method arguments = none := by
    simp [packing?, hrow]
  simp only [checkArguments, hps, hrow, Option.getD_some, hts, Bool.false_eq_true,
    if_false] at hcheck
  split at hcheck
  · cases hcheck
  · rename_i hlength
    rw [not_not] at hlength
    rw [List.append_nil, ← List.map_take] at hcheck
    have htake : ts.take ps.length = ts := List.take_of_length_le (by omega)
    have hall := forall₂_fits_of_checkArgument (by simp only [List.length_take]; omega) hcheck
    rw [htake, List.take_of_length_le (by omega)] at hall
    refine ⟨fun k t h => by simp [hpacking] at h, fun params _ h => ?_⟩
    obtain rfl := Option.some.inj ((params?_context hps).symm.trans h)
    rwa [hpacking]

/-- The first arguments of a method with a row fit the parameters in front of the row, and the
others the row. -/
theorem fit_of_isVarargs (hlocal : sc.isLocalReceiver receiver = true)
    (hrow : sc.table.isVarargs method = true) {front : List Variable} {last : Variable}
    (hps : sc.table.params? method = some (front ++ [last])) (harray : last.type.isArray = true)
    (hts : sc.argumentTypes receiver method arguments = ts.map some)
    (hcount : ts.length = arguments.length)
    (hcheck : sc.checkArguments n receiver method arguments = []) :
    sc.RowFits receiver method arguments (ts.map IrType.ofTy) ∧
      sc.ArgumentsFit receiver method arguments (ts.map IrType.ofTy) := by
  have hlast : (front ++ [last]).getLast? = some last := List.getLast?_concat
  have hlength' : (front ++ [last]).length - 1 = front.length := by simp
  simp only [checkArguments, hps, hrow, hlast, if_true, Option.getD_some, hts] at hcheck
  split at hcheck
  · cases hcheck
  · rename_i hlength
    rw [not_not] at hlength
    obtain ⟨hsingle, hpacked⟩ := packing?_eq_of_isVarargs hlocal hrow hps hlast
      (by simpa using hlength) hts
    rw [hlength', ← List.map_take, ← List.map_drop, List.append_eq_nil_iff] at hcheck
    rw [hlength'] at hsingle hpacked hlength
    have htake : (ts.take front.length).length = front.length := by
      rw [List.length_take]
      omega
    have hfirst := forall₂_fits_of_checkArgument (by rw [htake]; simp) hcheck.1
    rw [htake, List.take_left' rfl] at hfirst
    rcases fits_of_checkRow hcheck.2 with ⟨u, hu, hrowed, hfit⟩ | ⟨hnone, hfit⟩
    · have hpacking := hsingle u hu hrowed
      refine ⟨fun k t h => by simp [hpacking] at h, fun params _ h => ?_⟩
      obtain rfl := Option.some.inj ((params?_context hps).symm.trans h)
      have hsplit : ts = ts.take front.length ++ [u] := by
        rw [← hu, List.take_append_drop]
      rw [hpacking, hsplit]
      simp only [List.map_append, List.map_cons, List.map_nil]
      exact List.rel_append hfirst (.cons hfit .nil)
    · have hpacking := hpacked hnone
      refine ⟨fun k t h => ?_, fun params _ h => ?_⟩
      · rw [hpacking] at h
        cases h
        refine ⟨(IrType.isArray_ofTy _).trans harray, ?_⟩
        rw [← List.map_drop, IrType.ofTy_element harray]
        exact List.forall_mem_map.mpr hfit
      · obtain rfl := Option.some.inj ((params?_context hps).symm.trans h)
        rw [hpacking]
        simp only [← List.map_take, List.map_append, List.map_cons, List.map_nil]
        exact List.rel_append hfirst (.cons (.inl rfl) .nil)

/-- Arguments are packed only where the class has the method. -/
theorem packing?_eq_none (h : ¬(sc.isLocalReceiver receiver = true ∧
    ∃ ps, sc.table.params? method = some ps)) : sc.packing? receiver method arguments = none := by
  by_cases hlocal : sc.isLocalReceiver receiver = true
  · have hrow : sc.table.isVarargs method = false := Bool.eq_false_iff.mpr fun hrow =>
      h ⟨hlocal, SymbolTable.exists_params?_of_isVarargs hrow⟩
    simp [packing?, hrow]
  · simp [packing?, hlocal]

/-- **The arguments of a call that passes the checks fit.** -/
theorem arguments_fit (hrows : sc.TakesRowsInArrays)
    (hts : sc.argumentTypes receiver method arguments = ts.map some)
    (hcheck : sc.isLocalReceiver receiver = true → sc.table.hasMethod method = true →
      sc.checkArguments n receiver method arguments = []) :
    sc.RowFits receiver method arguments (ts.map IrType.ofTy) ∧
      sc.ArgumentsFit receiver method arguments (ts.map IrType.ofTy) := by
  by_cases hcalled : sc.isLocalReceiver receiver = true ∧ ∃ ps, sc.table.params? method = some ps
  · obtain ⟨hlocal, ps, hps⟩ := hcalled
    have hmethod : sc.table.hasMethod method = true := SymbolTable.hasMethod_of_params? hps
    have hcount : ts.length = arguments.length := by
      have hcount := congrArg List.length hts
      simpa [argumentTypes, argumentDemands, hlocal] using hcount.symm
    have hcheck := hcheck hlocal hmethod
    by_cases hrow : sc.table.isVarargs method = true
    · obtain ⟨last, hlast, harray⟩ := hrows method hrow
      rw [hps, Option.getD_some] at hlast
      obtain ⟨front, rfl⟩ := List.getLast?_eq_some_iff.mp hlast
      exact fit_of_isVarargs hlocal hrow hps harray hts hcount hcheck
    · exact fit_of_not_isVarargs hrow hps hts hcount hcheck
  · have hpacking : sc.packing? receiver method arguments = none := packing?_eq_none hcalled
    refine ⟨fun k t h => by simp [hpacking] at h, fun params hlocal h => ?_⟩
    obtain ⟨ps, hps, -⟩ := Option.map_eq_some_iff.mp h
    exact absurd ⟨hlocal, ps, hps⟩ hcalled

end Called

end Scope

end MiniJava
