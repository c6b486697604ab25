import MiniJava.Proofs.Lowering.Defined

/-!
# Temporary variables are assigned once

A lowering assigns variables of the method and the names that it takes from the supply. What it
takes, it takes for one assignment; only the result of `&&` and `||` has two, which the code for them
shows (`Ir.HasShortCircuit`). The names that are assigned on the way from one supply to another are
written down with the number of their assignments (`Ir.Supply.Writes`), and each lowering adds what it
assigns (`Ir.Lower.Writes`).
-/

namespace MiniJava

open Ir

namespace Ir

/-! ## Assigned names -/

/-- The variables that code assigns, each as often as there are assignments to it. -/
def destinations (code : Code) : List String := code.filterMap Instr.dest?

@[simp] theorem destinations_nil : destinations [] = [] := rfl

@[simp] theorem destinations_append (p q : Code) :
    destinations (p ++ q) = destinations p ++ destinations q := List.filterMap_append

@[simp] theorem destinations_cons (i : Instr) (p : Code) :
    destinations (i :: p) = i.dest?.toList ++ destinations p := by
  unfold destinations
  rw [List.filterMap_cons]
  cases i.dest? <;> rfl

/-- The instructions of `a && b` or `a || b` that compute its value into `x`. -/
inductive ShortCircuits (x : String) : Code → Prop
  | and (n : Nat) (a b : Operand) (code : Code) : ShortCircuits x
    (.branch a ("and_true_" ++ toString n) :: .assign ⟨x, .boolean⟩ (.single (.bool false)) ::
      .goto ("and_end_" ++ toString n) :: .label ("and_true_" ++ toString n) ::
      (code ++ [.assign ⟨x, .boolean⟩ (.single b), .label ("and_end_" ++ toString n)]))
  | or (n : Nat) (a b : Operand) (code : Code) : ShortCircuits x
    (.branch a ("or_true_" ++ toString n) :: (code ++ [.assign ⟨x, .boolean⟩ (.single b),
      .goto ("or_end_" ++ toString n), .label ("or_true_" ++ toString n),
      .assign ⟨x, .boolean⟩ (.single (.bool true)), .label ("or_end_" ++ toString n)]))

/-- In the code is that of `&&` or `||` with this result. -/
def HasShortCircuit (x : String) (code : Code) : Prop := ∃ p, p <:+: code ∧ ShortCircuits x p

variable {x d : String} {p q code : Code}

theorem HasShortCircuit.mono (h : HasShortCircuit x p) (hpq : p <:+: q) :
    HasShortCircuit x q := by
  obtain ⟨c, hc, hx⟩ := h
  exact ⟨c, hc.trans hpq, hx⟩

theorem HasShortCircuit.append_left (h : HasShortCircuit x p) (q : Code) :
    HasShortCircuit x (p ++ q) := h.mono ⟨[], q, rfl⟩

theorem HasShortCircuit.append_right (h : HasShortCircuit x q) (p : Code) :
    HasShortCircuit x (p ++ q) := h.mono ⟨p, [], by simp⟩

/-- Such a result is assigned twice. -/
theorem HasShortCircuit.two_le_count (h : HasShortCircuit x code) :
    2 ≤ (destinations code).count x := by
  obtain ⟨p, hp, hx⟩ := h
  have hcount : 2 ≤ (destinations p).count x := by
    cases hx <;> simp [Instr.dest?]
  exact hcount.trans ((hp.sublist.filterMap Instr.dest?).count_le x)

/-- The last instruction of such code is a label. -/
theorem ShortCircuits.exists_label (h : ShortCircuits x p) : ∃ l, p.getLast? = some (.label l) := by
  cases h with
  | and n => exact ⟨"and_end_" ++ toString n, by simp [List.getLast?_cons]⟩
  | or n => exact ⟨"or_end_" ++ toString n, by simp [List.getLast?_cons]⟩

theorem HasShortCircuit.of_concat {i : Instr} (h : HasShortCircuit x (p ++ [i]))
    (hi : i.label? = none) : HasShortCircuit x p := by
  obtain ⟨c, ⟨front, back, hc⟩, hx⟩ := h
  refine ⟨c, ?_, hx⟩
  cases back using List.reverseRecOn with
  | nil =>
    obtain ⟨l, hlast⟩ := hx.exists_label
    obtain ⟨c, rfl⟩ := List.getLast?_eq_some_iff.mp hlast
    rw [List.append_nil, ← List.append_assoc] at hc
    obtain ⟨-, hlast⟩ := List.append_inj' hc rfl
    cases hlast
    cases hi
  | append_singleton back j =>
    rw [← List.append_assoc] at hc
    obtain ⟨rfl, -⟩ := List.append_inj' hc rfl
    exact ⟨front, back, rfl⟩

namespace Supply

/-- On the way from one supply to another these names are assigned, which may be reserved or are
handed out on this way. No name that is handed out is assigned more often than once, or twice if that
is allowed. -/
structure Writes (s s' : Supply) (ds : List String) (twice : String → Prop) : Prop where
  hands : ∃ xs, s.Hands xs s'
  issued : ∀ d ∈ ds, d ∈ s.reserved ∨ s.MayIssue d ∧ ¬s'.MayIssue d
  count_le : ∀ d ∉ s.reserved, ds.count d ≤ 2 ∧ (¬twice d → ds.count d ≤ 1)

namespace Writes

variable {s s' : Supply} {ds ds' : List String} {twice twice' : String → Prop}

theorem refl (s : Supply) : s.Writes s [] fun _ => False :=
  ⟨⟨[], .refl s⟩, nofun, fun _ _ => ⟨Nat.zero_le 2, fun _ => Nat.zero_le 1⟩⟩

theorem precedes (h : s.Writes s' ds twice) : s.Precedes s' := by
  obtain ⟨xs, hxs⟩ := h.hands
  exact hxs.precedes

/-- Fewer assignments to names that are not reserved, or more allowed twice. -/
theorem mono (h : s.Writes s' ds twice) (hcount : ∀ d ∉ s.reserved, ds'.count d ≤ ds.count d)
    (htwice : ∀ d, twice d → twice' d) : s.Writes s' ds' twice' := by
  refine ⟨h.hands, fun d hd => ?_, fun d hd => ?_⟩
  · by_cases hreserved : d ∈ s.reserved
    · exact .inl hreserved
    · have hpos := List.count_pos_iff.mpr hd
      exact h.issued d (List.count_pos_iff.mp (hpos.trans_le (hcount d hreserved)))
  · obtain ⟨htwo, hone⟩ := h.count_le d hd
    have hle := hcount d hd
    exact ⟨hle.trans htwo, fun hnot => hle.trans (hone fun h => hnot (htwice d h))⟩

theorem label (h : s.Writes s' ds twice) (k : LabelKind) : s.Writes (s'.label k).2 ds twice := by
  obtain ⟨xs, hxs⟩ := h.hands
  refine ⟨⟨xs ++ [], hxs.append (.label k (.refl _))⟩, fun d hd => ?_, h.count_le⟩
  exact (h.issued d hd).imp_right fun hd => ⟨hd.1, fun hmay =>
    hd.2 ((Precedes.label s' k).mayIssue hmay)⟩

/-- A name is handed out for one or two assignments. -/
theorem handOut (h : s.Writes s' ds twice) {k : Nat} (hk : k ≤ 2) :
    s.Writes s'.temp.2 (List.replicate k s'.temp.1 ++ ds) fun d =>
      (k = 2 ∧ d = s'.temp.1) ∨ twice d := by
  obtain ⟨xs, hxs⟩ := h.hands
  have hnew : s.MayIssue s'.temp.1 := h.precedes.mayIssue s'.mayIssue_temp
  have hnot : s'.temp.1 ∉ ds := by
    intro hmem
    rcases h.issued _ hmem with hreserved | ⟨-, hissued⟩
    · exact hnew.1 hreserved
    · exact hissued s'.mayIssue_temp
  refine ⟨⟨xs ++ [s'.temp.1], hxs.append (.temp (.refl _))⟩, fun d hd => ?_, fun d hd => ?_⟩
  · rcases List.mem_append.mp hd with hd | hd
    · obtain rfl := List.eq_of_mem_replicate hd
      exact .inr ⟨hnew, s'.not_mayIssue_temp⟩
    · exact (h.issued d hd).imp_right fun hd => ⟨hd.1, fun hmay =>
        hd.2 ((Precedes.temp s').mayIssue hmay)⟩
  · rw [List.count_append, List.count_replicate]
    by_cases heq : d = s'.temp.1
    · subst heq
      rw [List.count_eq_zero_of_not_mem hnot, beq_self_eq_true, if_pos rfl]
      refine ⟨hk, fun hnot => ?_⟩
      have hne : k ≠ 2 := fun hk => hnot (.inl ⟨hk, rfl⟩)
      omega
    · obtain ⟨htwo, hone⟩ := h.count_le d hd
      rw [if_neg (by simpa using Ne.symm heq), Nat.zero_add]
      exact ⟨htwo, fun hnot => hone fun h => hnot (.inr h)⟩

end Writes

/-- Behind these assignments come those of some code. -/
abbrev Wrote (s : Supply) (ds : List String) (twice : String → Prop) (code : Code) (s' : Supply) :
    Prop :=
  s.Writes s' (ds ++ destinations code) fun d => twice d ∨ HasShortCircuit d code

namespace Wrote

variable {s s' : Supply} {ds : List String} {twice : String → Prop}

/-- Other code without more assignments and with the same results of `&&` and `||`. -/
theorem other (h : s.Wrote ds twice p s')
    (hcount : ∀ d ∉ s.reserved, (destinations q).count d ≤ (destinations p).count d)
    (hresults : ∀ d, HasShortCircuit d p → HasShortCircuit d q) : s.Wrote ds twice q s' := by
  refine h.mono (fun d hd => ?_) fun d => Or.imp_right (hresults d)
  rw [List.count_append, List.count_append]
  exact Nat.add_le_add_left (hcount d hd) _

theorem nil (h : s.Writes s' ds twice) : s.Wrote ds twice [] s' :=
  h.mono (fun d _ => by simp) fun _ => .inl

/-- An instruction that assigns nothing, or a variable of the method. -/
theorem concat {i : Instr} (h : s.Wrote ds twice p s') (hi : ∀ d, i.dest? = some d → d ∈ s.reserved) :
    s.Wrote ds twice (p ++ [i]) s' := by
  refine h.other (fun d hd => ?_) fun d hd => hd.append_left _
  cases hdest : i.dest? with
  | none => simp [hdest]
  | some d' =>
    have hne : d' ≠ d := fun heq => hd (heq ▸ hi d' hdest)
    simp [hdest, hne]

/-- Instructions that assign nothing. -/
theorem append (h : s.Wrote ds twice p s') (hq : destinations q = []) :
    s.Wrote ds twice (p ++ q) s' :=
  h.other (fun d _ => by simp [hq]) fun d hd => hd.append_left q

theorem join (h : s.Wrote (ds ++ destinations p) (fun d => twice d ∨ HasShortCircuit d p) q s') :
    s.Wrote ds twice (p ++ q) s' := by
  refine h.mono (fun d _ => ?_) fun d hd => ?_
  · rw [destinations_append, List.append_assoc]
  · rcases hd with (hd | hd) | hd
    · exact .inl hd
    · exact .inr (hd.append_left q)
    · exact .inr (hd.append_right p)

/-- A fresh variable is assigned. -/
theorem assignTemp (h : s.Wrote ds twice p s') (t : IrType) (rhs : Rhs) :
    s.Wrote ds twice (p ++ [.assign ⟨s'.temp.1, t⟩ rhs]) s'.temp.2 := by
  refine (h.handOut (k := 1) (by omega)).mono (fun d _ => ?_) fun d hd => ?_
  · simp only [destinations_append, destinations_cons, destinations_nil, Instr.dest?,
      Option.toList_some, List.count_append, List.count_cons, List.count_nil, List.replicate_one]
    omega
  · rcases hd with hd | hd | hd
    · cases hd.1
    · exact .inl hd
    · exact .inr (hd.append_left _)

end Wrote

end Supply

/-! ## Lowerings -/

namespace Lower

variable {α : Type} {s : Supply} {ds : List String} {twice : String → Prop} {code : Code}

/-- A lowering adds the assignments of its code to those before. -/
def Writes (x : Lower α) (code : α → Code) : Prop := ∀ (s : Supply) ds twice,
  Leaves (s.Writes · ds twice) x fun a => s.Wrote ds twice (code a)

/-- A lowering of a value. -/
abbrev WritesValue (x : Lower Value) : Prop := Writes x Value.code

variable {x y : Lower Value} {xs : List (Lower Value)}

/-- The code of a lowering behind other code. -/
theorem Writes.behind {x : Lower α} {c : α → Code} (h : Writes x c) :
    Leaves (s.Wrote ds twice code) x fun a => s.Wrote ds twice (code ++ c a) :=
  (h s _ _).mono fun _ _ h => h.join

/-- The code of a lowering behind other code, with instructions in between that assign nothing. -/
theorem Writes.past {x : Lower α} {c : α → Code} (h : Writes x c) (q : Code)
    (hq : destinations q = []) :
    Leaves (s.Wrote ds twice code) x fun a => s.Wrote ds twice (code ++ q ++ c a) :=
  fun s' hs a s'' hrun => h.behind s' (hs.append hq) a s'' hrun

theorem label_leaves (k : LabelKind) :
    Leaves (s.Writes · ds twice) (label k) fun _ s' => s.Writes s' ds twice := by
  intro s' hs n s'' hrun
  obtain ⟨rfl, rfl⟩ := label_eq_ok hrun
  exact hs.label k

theorem assignTemp_leaves (rhs : Rhs) : Leaves (s.Wrote ds twice code) (assignTemp code rhs)
    fun v => s.Wrote ds twice v.code := by
  intro s' hs v s'' hrun
  obtain ⟨rfl, rfl⟩ := assignTemp_eq_ok hrun
  exact hs.assignTemp _ rhs

theorem toVar_leaves (v : Value) : Leaves (s.Wrote ds twice v.code) (toVar v)
    fun a => s.Wrote ds twice a.2 := by
  unfold toVar
  split
  · exact .pure fun s' h => h
  · rename_i operand _
    intro s' hs a s'' hrun
    obtain ⟨dest, s₁, hdest, hrun⟩ := run_bind_eq_ok.mp hrun
    obtain ⟨rfl, rfl⟩ := temp_eq_ok hdest
    obtain ⟨rfl, rfl⟩ := run_pure_eq_ok.mp hrun
    exact hs.assignTemp _ _

theorem inOrder_writes (h : ∀ x ∈ xs, WritesValue x) : Writes (inOrder xs) Prod.snd := by
  induction xs with
  | nil => exact fun s ds twice => .pure fun s' h => .nil h
  | cons x xs ih =>
    obtain ⟨hx, hxs⟩ := List.forall_mem_cons.mp h
    intro s ds twice
    exact (hx s ds twice).bind fun v => (ih hxs).behind.bind fun a => .pure fun s' h => h

theorem storeFrom_writes (array : Var) (index : Nat) (h : ∀ x ∈ xs, WritesValue x) :
    Writes (storeFrom array index xs) id := by
  induction xs generalizing index with
  | nil => exact fun s ds twice => .pure fun s' h => .nil h
  | cons x xs ih =>
    obtain ⟨hx, hxs⟩ := List.forall_mem_cons.mp h
    intro s ds twice
    refine (hx s ds twice).bind fun v => ?_
    refine ((ih (index + 1) hxs).past [.arrayStore array (.int (.ofNat index)) v.operand] rfl).bind
      fun code => .pure fun s' h => ?_
    rwa [List.append_assoc] at h

theorem packArray_writes (t : IrType) (h : ∀ x ∈ xs, WritesValue x) :
    Writes (packArray t xs) Prod.snd := by
  intro s ds twice s' hs a s'' hrun
  obtain ⟨array, s₁, harray, hrun⟩ := run_bind_eq_ok.mp hrun
  obtain ⟨rfl, rfl⟩ := temp_eq_ok harray
  obtain ⟨code, s₂, hcode, hrun⟩ := run_bind_eq_ok.mp hrun
  obtain ⟨rfl, rfl⟩ := run_pure_eq_ok.mp hrun
  have harray := (Supply.Wrote.nil hs).assignTemp t
    (.newArray (.int (.ofNat xs.length)) t)
  exact (storeFrom_writes _ 0 h).behind _ harray code _ hcode

/-- The result is written down for two assignments before the parts are lowered. -/
theorem logical_writes {k : LabelKind} {code : Nat → Var → Value → Value → Code}
    (hx : WritesValue x) (hy : WritesValue y)
    (hcount : ∀ n result a b, (destinations (code n result a b)).Perm
      (result.name :: result.name :: (destinations a.code ++ destinations b.code)))
    (hparts : ∀ n result a b, a.code <:+: code n result a b ∧ b.code <:+: code n result a b)
    (hresult : ∀ n x a b, HasShortCircuit x (code n ⟨x, .boolean⟩ a b)) :
    WritesValue (do
      let n ← label k
      let result ← temp .boolean
      let a ← x
      let b ← y
      return ⟨.var result, code n result a b⟩) := by
  intro s ds twice s' hs v s'' hrun
  obtain ⟨a, b, s₁, ha, hb, rfl⟩ := logical_eq_ok hrun
  have hresults := (hs.label k).handOut (Nat.le_refl 2)
  have hboth := hy s _ _ s₁ (hx s _ _ _ hresults a s₁ ha) b s'' hb
  refine hboth.mono (fun d _ => ?_) fun d hd => ?_
  · rw [List.count_append, (hcount _ _ a b).count_eq]
    simp only [List.count_append, List.count_cons, List.count_nil, List.replicate_succ,
      List.replicate_zero]
    omega
  · obtain ⟨hfirst, hsecond⟩ := hparts (s'.label k).1 ⟨(s'.label k).2.temp.1, .boolean⟩ a b
    rcases hd with ((⟨-, rfl⟩ | hd) | hd) | hd
    · exact .inr (hresult _ _ a b)
    · exact .inl hd
    · exact .inr (hd.mono hfirst)
    · exact .inr (hd.mono hsecond)

theorem conjunction_writes (hx : WritesValue x) (hy : WritesValue y) :
    WritesValue (conjunction x y) := by
  refine logical_writes (k := .and) hx hy (fun n result a b => ?_) (fun n result a b => ⟨?_, ?_⟩)
    fun n x a b => ⟨_, ?_, .and n a.operand b.operand b.code⟩
  · refine List.perm_iff_count.mpr fun d => ?_
    simp only [destinations_append, destinations_cons, destinations_nil, Instr.dest?,
      Option.toList_some, Option.toList_none, List.count_append, List.count_cons, List.count_nil]
    omega
  · exact ((List.prefix_append _ _).trans
      ((List.prefix_append _ _).trans (List.prefix_append _ _))).isInfix
  · exact List.infix_append _ _ _
  · exact ⟨a.code, [], by simp⟩

theorem disjunction_writes (hx : WritesValue x) (hy : WritesValue y) :
    WritesValue (disjunction x y) := by
  refine logical_writes (k := .or) hx hy (fun n result a b => ?_) (fun n result a b => ⟨?_, ?_⟩)
    fun n x a b => ⟨_, ?_, .or n a.operand b.operand b.code⟩
  · refine List.perm_iff_count.mpr fun d => ?_
    simp only [destinations_append, destinations_cons, destinations_nil, Instr.dest?,
      Option.toList_some, Option.toList_none, List.count_append, List.count_cons, List.count_nil]
    omega
  · exact ((List.prefix_append _ _).trans
      ((List.prefix_append _ _).trans (List.prefix_append _ _))).isInfix
  · exact List.infix_append _ _ _
  · exact ⟨a.code, [], by simp⟩

theorem binary_writes (op : BinaryOp) (hx : WritesValue x) (hy : WritesValue y) :
    WritesValue (binary op x y) := by
  have hvalue (op' : BinOp) : WritesValue (do
      let a ← x
      let b ← y
      assignTemp (a.code ++ b.code) (.binary op' a.operand b.operand)) :=
    fun s ds twice => (hx s ds twice).bind fun a => hy.behind.bind fun b => assignTemp_leaves _
  cases op with
  | and => exact conjunction_writes hx hy
  | or => exact disjunction_writes hx hy
  | _ => exact hvalue _

end Lower

end Ir

namespace Scope

open Lower

variable {sc : Scope} {s : Supply} {ds : List String} {twice : String → Prop}

/-! ## Expressions -/

theorem lowerName_writes (name : String) (p : Position) : WritesValue (sc.lowerName name p) := by
  intro s ds twice
  unfold lowerName
  split
  · exact .pure fun s' h => .nil h
  · exact .pure fun s' h => .nil h
  · exact .pure fun s' h => .nil h
  · exact (assignTemp_leaves _).of_imp fun s' h => .nil h
  · exact .throw

theorem lowerArguments_writes (receiver : Node) (method : String) (arguments : List Node)
    {values : List (Lower Value)} (h : ∀ x ∈ values, WritesValue x) :
    Lower.Writes (sc.lowerArguments receiver method arguments values) Prod.snd := by
  rw [lowerArguments_eq]
  split
  · rename_i k t hpacking
    intro s ds twice
    refine (inOrder_writes (fun x hx => h x (List.mem_of_mem_take hx)) s ds twice).bind fun a => ?_
    have hpack : Lower.Writes (packArray t (values.drop k)) Prod.snd :=
      packArray_writes t fun x hx => h x (List.mem_of_mem_drop hx)
    exact hpack.behind.bind fun b => .pure fun s' h => h
  · exact inOrder_writes h

theorem lowerCall_writes (t : IrType) (receiver : Node) (method : String) (arguments : List Node)
    {target : Lower Value} {values : List (Lower Value)} (htarget : WritesValue target)
    (h : ∀ x ∈ values, WritesValue x) :
    Lower.Writes (sc.lowerCall t receiver method arguments target values) Prod.snd := by
  have harguments := sc.lowerArguments_writes receiver method arguments h
  intro s ds twice
  unfold lowerCall
  split
  · simp only [pure_bind]
    exact (harguments s ds twice).bind fun a => .pure fun s' h => h
  · simp only [pure_bind]
    exact (htarget s ds twice).bind fun v => harguments.behind.bind fun a => .pure fun s' h => h

theorem lowerEach_writes {ns : List Node} (h : ∀ n ∈ ns, ∀ d, WritesValue (sc.lowerExpr d n))
    (ds : List Ty) : ∀ x ∈ sc.lowerEach ds ns, WritesValue x := by
  induction ns generalizing ds with
  | nil => exact fun _ hx => nomatch hx
  | cons n ns ih =>
    obtain ⟨hn, hns⟩ := List.forall_mem_cons.mp h
    exact List.forall_mem_cons.mpr ⟨hn _, ih hns ds.tail⟩

/-- **An expression assigns fresh variables, once each but for the results of `&&` and `||`.** -/
theorem lowerExpr_writes (n : Node) (d : Ty) : WritesValue (sc.lowerExpr d n) := by
  induction n using Node.induction generalizing d with
  | step n ih =>
    obtain ⟨i, p, k⟩ := n
    intro s ds twice
    cases k with
    | program | importDecl | classDecl | varDecl | methodDecl | param | assign | arrayAssign
    | returning | ifElse | whileLoop | block | exprStmt => exact .throw
    | intLit | boolLit | this => exact .pure fun s' h => .nil h
    | varRef name => exact lowerName_writes name p s ds twice
    | paren inner => exact ih inner List.mem_cons_self d s ds twice
    | binary op left right =>
      exact binary_writes op (ih left (by simp [Node.children, Kind.children]) _)
        (ih right (by simp [Node.children, Kind.children]) _) s ds twice
    | unary op operand =>
      cases op
      exact (ih operand List.mem_cons_self _ s ds twice).bind fun v => assignTemp_leaves _
    | newObject className =>
      have hobject : Leaves (s.Writes · ds twice) (assignTemp [] (.newObject className))
          fun v => s.Wrote ds twice v.code :=
        (assignTemp_leaves _).of_imp fun s' h => .nil h
      exact hobject.bind fun v => .pure fun s' h => h.append rfl
    | newArray element size =>
      exact (ih size List.mem_cons_self _ s ds twice).bind fun v => assignTemp_leaves _
    | arrayAccess array index =>
      have hindex := ih index (by simp [Node.children, Kind.children]) .int
      refine (ih array (by simp [Node.children, Kind.children]) _ s ds twice).bind fun v => ?_
      exact (toVar_leaves v).bind fun a => hindex.behind.bind fun j => assignTemp_leaves _
    | arrayLength array =>
      refine (ih array List.mem_cons_self _ s ds twice).bind fun v => ?_
      exact (toVar_leaves v).bind fun a => assignTemp_leaves _
    | arrayLit elements =>
      have heach := lowerEach_writes ih (sc.elementDemands elements)
      exact (packArray_writes _ heach s ds twice).bind fun a => .pure fun s' h => h
    | call receiver method arguments =>
      have heach := lowerEach_writes (fun c hc => ih c (List.mem_cons_of_mem _ hc))
        (sc.argumentDemands receiver method arguments)
      rw [lowerExpr_call]
      refine (lowerCall_writes _ receiver method arguments (ih receiver List.mem_cons_self _) heach
        s ds twice).bind ?_
      rintro ⟨c, code⟩
      by_cases hvoid : c.returnType = .void
      · simp only [hvoid, if_true]
        exact (Leaves.throw (Q := fun _ _ => False)).bind fun _ _ h => h.elim
      · simp only [hvoid, if_false]
        exact assignTemp_leaves _

/-! ## Statements -/

/-- A lowering of a statement, for supplies with these reserved names. -/
def WritesCode (r : List String) (x : Lower Code) : Prop := ∀ (s : Supply) ds twice,
  s.reserved = r → Leaves (s.Writes · ds twice) x (s.Wrote ds twice)

variable {r : List String}

/-- What computes its last value into a variable of the method assigns one fresh variable less. -/
theorem wrote_retarget {s' : Supply} {v : Value} {dest : Var} (hdest : dest.name ∈ s.reserved)
    (h : s.Wrote ds twice v.code s') : s.Wrote ds twice
      ((retarget? dest v).getD (v.code ++ [.assign dest (.single v.operand)])) s' := by
  cases hretarget : retarget? dest v with
  | none =>
    refine h.concat fun d hd => ?_
    obtain rfl := Option.some.inj hd
    exact hdest
  | some code =>
    obtain ⟨front, last, rhs, rfl, rfl⟩ := retarget?_eq_some hretarget
    refine h.other (fun d hd => ?_) fun d hd => (hd.of_concat rfl).append_left _
    have hne : dest.name ≠ d := fun heq => hd (heq ▸ hdest)
    simp [Instr.dest?, hne]

theorem lowerAssign_writes (hr : sc.Reserves r) {x : Lower Value} (hx : WritesValue x)
    (target : String) (p : Position) : WritesCode r (sc.lowerAssign target p x) := by
  intro s ds twice hs
  refine (hx s ds twice).bind fun v => ?_
  split
  · exact .pure fun s' h => wrote_retarget (hs.symm ▸ hr target _ ‹_› rfl) h
  · exact .pure fun s' h => wrote_retarget (hs.symm ▸ hr target _ ‹_› rfl) h
  · exact .pure fun s' h => h.concat nofun
  · exact .throw
  · exact .throw

theorem lowerArrayName_writes (target : String) (p : Position) :
    Lower.Writes (sc.lowerArrayName target p) Prod.snd := by
  intro s ds twice
  unfold lowerArrayName
  split
  · exact .pure fun s' h => .nil h
  · exact .pure fun s' h => .nil h
  · intro s' hs a s'' hrun
    obtain ⟨dest, s₁, hdest, hrun⟩ := run_bind_eq_ok.mp hrun
    obtain ⟨rfl, rfl⟩ := temp_eq_ok hdest
    obtain ⟨rfl, rfl⟩ := run_pure_eq_ok.mp hrun
    exact (Supply.Wrote.nil hs).assignTemp _ _
  · exact .throw
  · exact .throw

theorem lowerDropped_writes (n : Node) : Lower.Writes (sc.lowerDropped n) id := by
  induction n using Node.induction with
  | step n ih =>
    obtain ⟨i, p, k⟩ := n
    cases k with
    | paren inner => exact ih inner List.mem_cons_self
    | call receiver method arguments =>
      have heach (ds : List Ty) : ∀ x ∈ sc.lowerEach ds arguments, WritesValue x :=
        lowerEach_writes (fun c _ => lowerExpr_writes c) ds
      intro s ds twice
      rw [lowerDropped_call]
      exact (lowerCall_writes _ receiver method arguments (lowerExpr_writes receiver _) (heach _)
        s ds twice).bind fun _ => .pure fun s' h => h.concat nofun
    | _ =>
      exact fun s ds twice => (lowerExpr_writes _ .void s ds twice).bind fun v =>
        .pure fun s' h => h

theorem WritesCode.past {x : Lower Code} {code : Code} (h : WritesCode r x) (hs : s.reserved = r)
    (q : Code) (hq : destinations q = []) :
    Leaves (s.Wrote ds twice code) x fun c => s.Wrote ds twice (code ++ q ++ c) :=
  fun s' hs' c s'' hrun => (h s _ _ hs s' (hs'.append hq) c s'' hrun).join

theorem lowerStmts_writes {ns : List Node} (h : ∀ n ∈ ns, WritesCode r (sc.lowerStmt n)) :
    WritesCode r (sc.lowerStmts ns) := by
  induction ns with
  | nil => exact fun s ds twice _ => .pure fun s' h => .nil h
  | cons n ns ih =>
    obtain ⟨hn, hns⟩ := List.forall_mem_cons.mp h
    intro s ds twice hs
    refine (hn s ds twice hs).bind fun p => ((ih hns).past hs [] rfl).bind fun q => .pure ?_
    intro s' h
    rwa [List.append_nil] at h

theorem wrote_closeWith {s' : Supply} {p q : Code} {i : Instr} (target : String)
    (h : s.Wrote ds twice (p ++ [i] ++ q) s') :
    s.Wrote ds twice (p ++ closeWith (i :: q) target) s' := by
  rw [List.append_assoc] at h
  unfold closeWith
  split
  · exact h
  · have hjump := h.append (q := [.goto target]) rfl
    rwa [List.append_assoc] at hjump

/-- **A statement assigns fresh variables, once each but for the results of `&&` and `||`, and
variables of the method.** -/
theorem lowerStmt_writes (hr : sc.Reserves r) (n : Node) : WritesCode r (sc.lowerStmt n) := by
  induction n using Node.induction with
  | step n ih =>
    obtain ⟨i, p, k⟩ := n
    intro s ds twice hs
    cases k with
    | assign target value =>
      exact lowerAssign_writes hr (lowerExpr_writes value _) target p s ds twice hs
    | arrayAssign target index value =>
      refine (lowerArrayName_writes target p s ds twice).bind fun a => ?_
      refine (lowerExpr_writes index _).behind.bind fun j => ?_
      exact (lowerExpr_writes value _).behind.bind fun v => .pure fun s' h => h.concat nofun
    | returning value =>
      cases value with
      | none => exact .pure fun s' h => (Supply.Wrote.nil h).concat (i := .ret none) nofun
      | some value =>
        exact (lowerExpr_writes value _ s ds twice).bind fun v => .pure fun s' h => h.concat nofun
    | ifElse c thenBranch elseBranch =>
      have hthen := ih thenBranch (by simp [Node.children, Kind.children])
      cases elseBranch with
      | none =>
        refine (label_leaves _).bind fun n => ?_
        refine (lowerExpr_writes c _ s ds twice).bind fun v => ?_
        exact (hthen.past hs [.branch v.operand ("if_then_" ++ toString n),
          .goto ("if_end_" ++ toString n), .label ("if_then_" ++ toString n)] rfl).bind
            fun thenCode => .pure fun s' h => h.append rfl
      | some elseBranch =>
        have helse := ih elseBranch (by simp [Node.children, Kind.children])
        refine (label_leaves _).bind fun n => ?_
        refine (lowerExpr_writes c _ s ds twice).bind fun v => ?_
        have hno := (helse.past hs [.branch v.operand ("if_then_" ++ toString n)] rfl).mono
          fun elseCode s' (h : s.Wrote ds twice (v.code ++ _ ++ elseCode) s') =>
            wrote_closeWith ("if_end_" ++ toString n) h
        refine hno.bind fun elseCode => ?_
        exact (hthen.past hs [.label ("if_then_" ++ toString n)] rfl).bind
          fun thenCode => .pure fun s' h => h.append rfl
    | whileLoop c body =>
      have hbody := ih body (by simp [Node.children, Kind.children])
      refine ((label_leaves _).mono fun n s' h => Supply.Wrote.nil h).bind fun n => ?_
      refine ((lowerExpr_writes c _).past [.label ("while_cond_" ++ toString n)] rfl).bind
        fun v => ?_
      exact (hbody.past hs [.branch v.operand ("while_body_" ++ toString n),
        .goto ("while_end_" ++ toString n), .label ("while_body_" ++ toString n)] rfl).bind
          fun bodyCode => .pure fun s' h => h.append rfl
    | block statements => exact lowerStmts_writes ih s ds twice hs
    | exprStmt e => exact lowerDropped_writes e s ds twice
    | _ => exact .throw

end Scope

end MiniJava
