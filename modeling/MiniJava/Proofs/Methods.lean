import MiniJava.SymbolTable

/-!
# What is known of methods

The five parts of a `MethodTable` are filled by one function, which takes up a method only if none
of its name was taken up before. They stay in step: each says of a name what the first method of
this name says (`MethodTable.Holds`). That is preserved by each method that is taken up
(`MethodTable.Holds.add`), so it holds of every table (`MethodTable.holds_ofSignatures`), and the
queries of a symbol table answer by its list of methods (`SymbolTable.params?_eq` and its likes).
-/

namespace MiniJava

/-! ## The first method of a name -/

/-- The first of the methods with this name. -/
def firstOf? (ss : List Signature) (method : String) : Option Signature :=
  ss.find? (·.name == method)

section

variable {ss : List Signature} {s : Signature} {method : String}

theorem firstOf?_concat_of_ne (h : s.name ≠ method) :
    firstOf? (ss ++ [s]) method = firstOf? ss method := by
  simp [firstOf?, List.find?_append, h]

theorem firstOf?_concat_of_isSome (h : (firstOf? ss s.name).isSome = true) (method : String) :
    firstOf? (ss ++ [s]) method = firstOf? ss method := by
  by_cases hname : s.name = method
  · obtain ⟨first, hfirst⟩ := Option.isSome_iff_exists.mp (hname ▸ h)
    rw [firstOf?, List.find?_append, ← firstOf?, hfirst, Option.some_or]
  · exact firstOf?_concat_of_ne hname

theorem firstOf?_concat_self (h : firstOf? ss s.name = none) :
    firstOf? (ss ++ [s]) s.name = some s := by
  rw [firstOf?, List.find?_append, ← firstOf?, h]
  simp

end

namespace MethodTable

/-- Each part of the table says of a name what the first of these methods with that name says. -/
structure Holds (t : MethodTable) (ss : List Signature) : Prop where
  names : t.names = ss.map Signature.name
  returnType : ∀ method ≠ "main",
    t.returnTypes.lookup method = (firstOf? ss method).map Signature.returnType
  params : ∀ method, t.params.lookup method = (firstOf? ss method).map Signature.params
  locals : ∀ method, t.locals.lookup method = (firstOf? ss method).map Signature.locals
  varargs : ∀ method,
    t.varargs.contains method = ((firstOf? ss method).map Signature.isVarargs).getD false

variable {t : MethodTable} {ss : List Signature} {s : Signature}

/-- What is entered for a new method is found under its name. -/
theorem lookup_cons_eq {α : Type} {f : Signature → α} {entries : List (String × α)}
    {method : String} (hnew : firstOf? ss s.name = none)
    (h : entries.lookup method = (firstOf? ss method).map f) :
    ((s.name, f s) :: entries).lookup method = (firstOf? (ss ++ [s]) method).map f := by
  rw [List.lookup_cons]
  by_cases hname : method = s.name
  · rw [hname, firstOf?_concat_self hnew, beq_self_eq_true]
    rfl
  · rw [firstOf?_concat_of_ne (Ne.symm hname), beq_false_of_ne hname, h]

/-- **A method that is taken up keeps the parts in step.** -/
theorem Holds.add (h : t.Holds ss) (s : Signature) : (t.add s).Holds (ss ++ [s]) := by
  have hnames : t.names ++ [s.name] = (ss ++ [s]).map Signature.name := by
    rw [h.names, List.map_append]
    rfl
  unfold MethodTable.add
  dsimp only
  split
  · rename_i hknown
    rw [h.params, Option.isSome_map] at hknown
    have hfirst := firstOf?_concat_of_isSome hknown
    constructor
    · exact hnames
    · intro method hmain
      rw [hfirst]
      exact h.returnType method hmain
    · intro method
      rw [hfirst]
      exact h.params method
    · intro method
      rw [hfirst]
      exact h.locals method
    · intro method
      rw [hfirst]
      exact h.varargs method
  · rename_i hnew
    rw [h.params, Option.isSome_map, Bool.not_eq_true, Option.isSome_eq_false_iff,
      Option.isNone_iff_eq_none] at hnew
    constructor
    · exact hnames
    · intro method hmain
      by_cases hs : s.name = "main"
      · have hne : s.name ≠ method := fun heq => hmain (heq.symm.trans hs)
        rw [if_pos hs, firstOf?_concat_of_ne hne]
        exact h.returnType method hmain
      · rw [if_neg hs]
        exact lookup_cons_eq hnew (h.returnType method hmain)
    · exact fun method => lookup_cons_eq hnew (h.params method)
    · exact fun method => lookup_cons_eq hnew (h.locals method)
    · intro method
      have hrows := h.varargs method
      by_cases hname : s.name = method
      · subst hname
        rw [hnew] at hrows
        rw [firstOf?_concat_self hnew]
        cases hrow : s.isVarargs <;> simp_all
      · rw [firstOf?_concat_of_ne hname, ← hrows]
        cases s.isVarargs with
        | true => simp [Ne.symm hname]
        | false => rfl

theorem Holds.foldl {ss' : List Signature} (h : t.Holds ss) :
    (ss'.foldl MethodTable.add t).Holds (ss ++ ss') := by
  induction ss' generalizing t ss with
  | nil => rwa [List.append_nil]
  | cons s ss' ih =>
    have hadd := ih (h.add s)
    rwa [List.append_assoc] at hadd

/-- **The parts of a table say what the first methods of their names say.** -/
theorem holds_ofSignatures (ss : List Signature) : (ofSignatures ss).Holds ss :=
  have hempty : Holds {} [] := ⟨rfl, fun _ _ => rfl, fun _ => rfl, fun _ => rfl, fun _ => rfl⟩
  hempty.foldl

end MethodTable

namespace SymbolTable

/-- The method of this name. -/
def signature? (t : SymbolTable) (method : String) : Option Signature :=
  firstOf? t.signatures method

variable (t : SymbolTable) (method : String)

theorem holds : t.methodTable.Holds t.signatures :=
  t.methodTable_eq ▸ MethodTable.holds_ofSignatures t.signatures

theorem methods_eq : t.methods = t.signatures.map Signature.name := t.holds.names

theorem hasMethod_eq : t.hasMethod method = (t.signature? method).isSome := by
  rw [hasMethod, methods_eq, List.any_map, signature?, firstOf?, List.isSome_find?]
  rfl

theorem returnType?_eq : t.returnType? method =
    if method == "main" then some .void else (t.signature? method).map Signature.returnType := by
  unfold returnType?
  split
  · rfl
  · rename_i hmain
    exact t.holds.returnType method (by simpa using hmain)

theorem params?_eq : t.params? method = (t.signature? method).map Signature.params :=
  t.holds.params method

theorem locals?_eq : t.locals? method = (t.signature? method).map Signature.locals :=
  t.holds.locals method

theorem isVarargs_eq :
    t.isVarargs method = ((t.signature? method).map Signature.isVarargs).getD false :=
  t.holds.varargs method

variable {t method}

theorem hasMethod_iff : t.hasMethod method = true ↔ method ∈ t.methods := by
  simp [hasMethod]

/-- A method with parameters is declared. -/
theorem hasMethod_of_params? {params : List Variable} (h : t.params? method = some params) :
    t.hasMethod method = true := by
  rw [params?_eq] at h
  obtain ⟨s, hs, -⟩ := Option.map_eq_some_iff.mp h
  rw [hasMethod_eq, hs]
  rfl

/-- A method that takes any number of arguments has parameters. -/
theorem exists_params?_of_isVarargs (h : t.isVarargs method = true) :
    ∃ params, t.params? method = some params := by
  rw [isVarargs_eq] at h
  rw [params?_eq]
  cases hs : t.signature? method with
  | none => rw [hs] at h; cases h
  | some s => exact ⟨s.params, rfl⟩

end SymbolTable

end MiniJava
