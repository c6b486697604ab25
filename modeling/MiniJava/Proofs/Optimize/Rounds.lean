import Mathlib.Data.List.Forall2
import MiniJava.Optimize
import MiniJava.Proofs.Optimize.Propagation

/-!
# The optimizer is harmless

A round of the optimizer is harmless because both of its passes are, and there is an end to the
rounds because each replacement leaves one node less that is no literal
(`Node.count_fold`, `count_propagateConstants`). Together: `optimize` yields a tree each of whose
methods behaves like the method at its place before (`optimize_sameBehaviour`).
-/

namespace MiniJava

/-! ## Counting what is propagated -/

namespace Node

/-- Each replaced name leaves one node less that is no literal. -/
theorem count_substitute (k : Known) (n : Node) :
    (n.substitute k).count + (n.substitute k).value.nonLiterals = n.nonLiterals := by
  induction n using Node.induction with
  | step n ih =>
    by_cases hlabel : n.label = .varRef
    · obtain ⟨i, p, kind⟩ := n
      cases kind with
      | varRef name =>
        unfold substitute
        cases hc : k.get? name with
        | none => exact Nat.zero_add _
        | some c =>
          have hzero := nonLiterals_of_literal (Constant.HoldsAt.become ⟨i, p, .varRef name⟩ c)
          exact congrArg (1 + ·) hzero
      | _ => cases hlabel
    · rcases substitute_cases k n hlabel with h | ⟨hvalue, hcount⟩
      · rw [h]
        exact Nat.zero_add _
      · have hbelow := sum_map_add ih
        have hmap := n.nonLiterals_mapChildren fun c => (c.substitute k).value
        rw [hvalue, hcount, n.nonLiterals_eq]
        omega

/-- Each name replaced in a statement leaves one node less that is no literal. -/
theorem count_propagate (tracked : List String) (n : Node) (k : Known) :
    (n.propagate tracked k).count + (n.propagate tracked k).value.1.nonLiterals =
      n.nonLiterals := by
  induction n using Node.induction generalizing k with
  | step n ih =>
    have ih {c : Node} (hc : c ∈ n.children) (k : Known) := ih c hc k
    obtain ⟨i, p, kind⟩ := n
    cases kind with
    | assign target value =>
      have hv := count_substitute k value
      simp [propagate, nonLiterals_eq ⟨_, _, .assign _ _⟩, children, Kind.children,
        Kind.isLiteral, -bind_pure_comp]
      omega
    | arrayAssign target index value =>
      have hi := count_substitute k index
      have hv := count_substitute k value
      simp [propagate, nonLiterals_eq ⟨_, _, .arrayAssign _ _ _⟩, children, Kind.children,
        Kind.isLiteral, -bind_pure_comp]
      omega
    | returning value =>
      cases value with
      | none => exact Nat.zero_add _
      | some value =>
        have hv := count_substitute k value
        simp [propagate, nonLiterals_eq ⟨_, _, .returning (some _)⟩, children, Kind.children,
          Kind.isLiteral, -bind_pure_comp]
        omega
    | exprStmt e =>
      have he := count_substitute k e
      simp [propagate, nonLiterals_eq ⟨_, _, .exprStmt _⟩, children, Kind.children,
        Kind.isLiteral, -bind_pure_comp]
      omega
    | ifElse c thenBranch elseBranch =>
      have hc := count_substitute k c
      have hthen := ih (c := thenBranch) mem_second k
      cases elseBranch with
      | none =>
        simp [propagate, nonLiterals_eq ⟨_, _, .ifElse _ _ none⟩, children, Kind.children,
          Kind.isLiteral, -bind_pure_comp]
        omega
      | some elseBranch =>
        have helse := ih (c := elseBranch) mem_third k
        simp [propagate, nonLiterals_eq ⟨_, _, .ifElse _ _ (some _)⟩, children, Kind.children,
          Kind.isLiteral, -bind_pure_comp]
        omega
    | whileLoop c body =>
      have hc := count_substitute (k.eraseAll body.assignedNames) c
      have hbody := ih (c := body) mem_second
        (k.eraseAll body.assignedNames)
      simp [propagate, nonLiterals_eq ⟨_, _, .whileLoop _ _⟩, children, Kind.children,
        Kind.isLiteral, -bind_pure_comp]
      omega
    | block statements =>
      have hall (ns : List Node) (hns : ∀ c ∈ ns, c ∈ statements) (k : Known) :
          (propagateAll tracked k ns).count +
            ((propagateAll tracked k ns).value.1.map nonLiterals).sum =
              (ns.map nonLiterals).sum := by
        induction ns generalizing k with
        | nil => rfl
        | cons n ns ih' =>
          have hn := ih (hns n List.mem_cons_self) k
          have hrest := ih' (fun c hc => hns c (List.mem_cons_of_mem n hc))
            (n.propagate tracked k).value.2
          simp [propagateAll, -bind_pure_comp]
          omega
      have hs := hall statements (fun _ h => h) k
      simp [propagate, nonLiterals_eq ⟨_, _, .block _⟩, children, Kind.children,
        Kind.isLiteral, -bind_pure_comp]
      omega
    | _ => exact Nat.zero_add _

end Node

theorem Counted.value_mapM {α β : Type} (f : α → Counted β) (as : List α) :
    (as.mapM f).value = as.map fun a => (f a).value := by
  induction as with
  | nil => rfl
  | cons a as ih =>
    rw [List.mapM_cons, List.map_cons, ← ih]
    rfl

theorem Counted.count_mapM {α β : Type} (f : α → Counted β) (as : List α) :
    (as.mapM f).count = (as.map fun a => (f a).count).sum := by
  induction as with
  | nil => rfl
  | cons a as ih =>
    rw [List.mapM_cons, List.map_cons, List.sum_cons, ← ih]
    rfl

section Programs

variable (t : SymbolTable)

theorem count_propagateMethod (n : Node) :
    (propagateMethod t n).count + (propagateMethod t n).value.nonLiterals = n.nonLiterals := by
  obtain ⟨i, p, kind⟩ := n
  cases kind with
  | methodDecl head params locals body =>
    have hbody := Node.count_propagate (trackedNames t head) ⟨i, p, .block body⟩ {}
    simp [Node.propagate, Node.nonLiterals_eq ⟨_, _, .block _⟩, Node.children, Kind.children,
      Kind.isLiteral, -bind_pure_comp] at hbody
    simp [propagateMethod, Node.nonLiterals_eq ⟨_, _, .methodDecl _ _ _ _⟩, Node.children,
      Kind.children, Kind.isLiteral, -bind_pure_comp]
    omega
  | _ => exact Nat.zero_add _

theorem count_propagateItems (ns : List Node) :
    (propagateItems t ns).count + ((propagateItems t ns).value.map Node.nonLiterals).sum =
      (ns.map Node.nonLiterals).sum := by
  induction ns with
  | nil => rfl
  | cons n ns ih =>
    obtain ⟨i, p, kind⟩ := n
    cases kind with
    | classDecl name superclass fields methods =>
      have hmethods := Node.sum_map_add fun m (_ : m ∈ methods) => count_propagateMethod t m
      simp [propagateItems, Node.nonLiterals_eq ⟨_, _, .classDecl _ _ _ _⟩, Node.children,
        Kind.children, Kind.isLiteral, Counted.value_mapM, Counted.count_mapM, -bind_pure_comp,
        Function.comp_def]
      omega
    | _ =>
      simp [propagateItems, -bind_pure_comp]
      omega

theorem count_propagateConstants (root : Node) :
    (propagateConstants t root).count + (propagateConstants t root).value.nonLiterals =
      root.nonLiterals := by
  obtain ⟨i, p, kind⟩ := root
  cases kind with
  | program items =>
    have hitems := count_propagateItems t items
    simp [propagateConstants, Node.nonLiterals_eq ⟨_, _, .program _⟩, Node.children,
      Kind.children, Kind.isLiteral, -bind_pure_comp]
    omega
  | _ => exact Nat.zero_add _

/-! ## The methods behind a pass -/

/-- The methods of the first class among the items of a program. -/
def methodsAmong (items : List Node) : List Node :=
  match (items.find? (·.kind.label = .classDecl)).map Node.kind with
  | some (.classDecl _ _ _ methods) => methods
  | _ => []

theorem methodsAmong_propagateItems (items : List Node) :
    methodsAmong (propagateItems t items).value =
      (methodsAmong items).map fun m => (propagateMethod t m).value := by
  induction items with
  | nil => rfl
  | cons n ns ih =>
    obtain ⟨i, p, kind⟩ := n
    cases kind with
    | classDecl name superclass fields methods => exact Counted.value_mapM _ methods
    | _ => exact ih

theorem methods_propagateConstants (root : Node) :
    (propagateConstants t root).value.methods =
      root.methods.map fun m => (propagateMethod t m).value := by
  obtain ⟨i, p, kind⟩ := root
  cases kind with
  | program items => exact methodsAmong_propagateItems t items
  | _ => rfl

end Programs

/-- Folding leaves a node that is no operation and no parenthesis what it is. -/
theorem Node.value_foldConstants (n : Node) {l : Label} (hl : n.label = l)
    (h : l ∉ [.binary, .unary, .paren]) :
    (foldConstants n).value = n.mapChildren fun c => (foldConstants c).value := by
  unfold foldConstants
  rw [value_rewrite]
  subst hl
  obtain ⟨i, p, kind⟩ := n
  cases kind with
  | binary | unary | paren => exact absurd (by simp [label, Kind.label]) h
  | _ => rfl

/-- Folding neither makes nor removes nodes other than operations, parentheses and literals. -/
theorem Node.label_foldConstants (n : Node) {l : Label}
    (h : l ∉ [.binary, .unary, .paren, .intLit, .boolLit]) :
    (foldConstants n).value.label = l ↔ n.label = l := by
  unfold foldConstants
  rw [value_rewrite]
  unfold foldHere
  split
  · rename_i c hc
    have hbefore : n.label ∈ [.binary, .unary, .paren] := by
      obtain ⟨i, p, kind⟩ := n
      cases kind with
      | binary | unary | paren => simp [label, Kind.label]
      | _ => cases hc
    have hafter (m : Node) : (m.become c).label ∈ [.intLit, .boolLit] := by
      cases c <;> simp [become, Constant.toKind, label, Kind.label]
    have h : l ∉ [.binary, .unary, .paren] ++ [.intLit, .boolLit] := h
    refine ⟨?_, ?_⟩
    · rintro rfl
      exact absurd (List.mem_append_right _ (hafter _)) h
    · rintro rfl
      exact absurd (List.mem_append_left _ hbefore) h
  · exact iff_of_eq (congrArg (· = _) (Kind.label_map _ _))

theorem methodsAmong_foldConstants (items : List Node) :
    methodsAmong (items.map fun c => (foldConstants c).value) =
      (methodsAmong items).map fun m => (foldConstants m).value := by
  induction items with
  | nil => rfl
  | cons n ns ih =>
    by_cases hlabel : n.label = .classDecl
    · obtain ⟨i, p, kind⟩ := n
      cases kind with
      | classDecl name superclass fields methods =>
        have hvalue := Node.value_foldConstants
          ⟨i, p, .classDecl name superclass fields methods⟩ (l := .classDecl) rfl (by decide)
        unfold methodsAmong
        rw [List.map_cons, List.find?_cons_of_pos, List.find?_cons_of_pos, hvalue]
        · rfl
        · exact decide_eq_true hlabel
        · exact decide_eq_true ((Node.label_foldConstants _ (by decide)).mpr hlabel)
      | _ => cases hlabel
    · unfold methodsAmong at ih ⊢
      rw [List.map_cons, List.find?_cons_of_neg, List.find?_cons_of_neg, ih]
      · exact fun h => hlabel (of_decide_eq_true h)
      · exact fun h => hlabel ((Node.label_foldConstants n (by decide)).mp (of_decide_eq_true h))

theorem Node.methods_of_label_ne {n : Node} (h : n.label ≠ .program) : n.methods = [] := by
  obtain ⟨i, p, kind⟩ := n
  cases kind with
  | program => exact absurd rfl h
  | _ => rfl

theorem methods_foldConstants (root : Node) :
    (foldConstants root).value.methods = root.methods.map fun m => (foldConstants m).value := by
  by_cases hlabel : root.label = .program
  · obtain ⟨i, p, kind⟩ := root
    cases kind with
    | program items =>
      rw [Node.value_foldConstants ⟨i, p, .program items⟩ (l := .program) rfl (by decide)]
      exact methodsAmong_foldConstants items
    | _ => cases hlabel
  · rw [Node.methods_of_label_ne hlabel, Node.methods_of_label_ne]
    · rfl
    · exact fun h => hlabel ((Node.label_foldConstants root (by decide)).mp h)

/-! ## One method -/

/-- The node is a method whose assignments of constants fit. -/
def Node.IsFitMethod (t : SymbolTable) (m : Node) : Prop :=
  ∃ head params locals body, m.kind = .methodDecl head params locals body ∧
    ∀ c ∈ body, c.AssignsFit (Scope.ofMethod t head)

/-- Two methods of one name run the same. -/
def Node.SameMethod (t : SymbolTable) (m m' : Node) : Prop :=
  m'.kind.declaredName? = m.kind.declaredName? ∧
    ∀ w vars, m'.runMethod t w vars = m.runMethod t w vars

/-- Rows that are related one by one to a row between them. -/
theorem forall₂_trans {α β γ : Type} {R : α → β → Prop} {S : β → γ → Prop} {T : α → γ → Prop}
    (htrans : ∀ a b c, R a b → S b c → T a c) {as : List α} {bs : List β} {cs : List γ}
    (h : List.Forall₂ R as bs) (h' : List.Forall₂ S bs cs) : List.Forall₂ T as cs := by
  induction h generalizing cs with
  | nil =>
    cases h'
    exact .nil
  | cons hab _ ih =>
    cases h' with
    | cons hbc h' => exact .cons (htrans _ _ _ hab hbc) (ih h')

namespace Node

variable {t : SymbolTable} {m m' m'' : Node}

theorem SameMethod.trans (h : SameMethod t m m') (h' : SameMethod t m' m'') :
    SameMethod t m m'' :=
  ⟨h'.1.trans h.1, fun w vars => (h'.2 w vars).trans (h.2 w vars)⟩

theorem forall₂_sameMethod_trans {as bs cs : List Node} :
    List.Forall₂ (SameMethod t) as bs → List.Forall₂ (SameMethod t) bs cs →
      List.Forall₂ (SameMethod t) as cs :=
  forall₂_trans fun _ _ _ h h' => h.trans h'

theorem tracks_trackedNames (t : SymbolTable) (head : MethodHead) :
    (Scope.ofMethod t head).Tracks (trackedNames t head) := by
  intro x hx
  have hlookup := (List.mem_filter.mp hx).2
  cases hb : (Scope.ofMethod t head).lookup? x with
  | none =>
    rw [hb] at hlookup
    cases hlookup
  | some b =>
    rw [hb] at hlookup
    exact ⟨b, rfl, hlookup⟩

theorem IsFitMethod.propagate (h : m.IsFitMethod t) :
    (propagateMethod t m).value.IsFitMethod t ∧ SameMethod t m (propagateMethod t m).value := by
  obtain ⟨head, params, locals, body, hkind, hbody⟩ := h
  obtain ⟨i, p, kind⟩ := m
  cases hkind
  have hpropagated : Propagated (Scope.ofMethod t head) (trackedNames t head) {}
      ⟨i, p, .block body⟩ (Node.propagate (trackedNames t head) {} ⟨i, p, .block body⟩).value :=
    .block (Known.fits_empty _ _) hbody fun c hc k hk =>
      propagated (tracks_trackedNames t head) (hbody c hc) hk
  refine ⟨⟨head, params, locals, _, rfl, fun c hc => hpropagated.assignsFit.child hc⟩, rfl, ?_⟩
  intro w vars
  funext fuel
  exact congrArg (Scope.finish (.ofExpr head.returnType))
    (hpropagated.run w fuel vars [] (Known.holds_empty vars))

theorem IsFitMethod.fold (h : m.IsFitMethod t) :
    (foldConstants m).value.IsFitMethod t ∧ SameMethod t m (foldConstants m).value := by
  obtain ⟨head, params, locals, body, hkind, hbody⟩ := h
  obtain ⟨i, p, kind⟩ := m
  cases hkind
  rw [value_foldConstants ⟨i, p, .methodDecl head params locals body⟩ (l := .methodDecl) rfl
    (by decide)]
  refine ⟨⟨head, _, _, _, rfl, fun c hc => ?_⟩, rfl, fun w vars => ?_⟩
  · obtain ⟨c', hc', rfl⟩ := List.mem_map.mp hc
    exact (hbody c' hc').fold
  · funext fuel
    exact congrArg (Scope.finish (.ofExpr head.returnType))
      (Scope.SameRun.execAll (fun c _ => (alike_and_sameRun_fold _ c).2) w fuel vars [])

/-- A round of the optimizer. -/
theorem IsFitMethod.round (h : m.IsFitMethod t) :
    (foldConstants (propagateMethod t m).value).value.IsFitMethod t ∧
      SameMethod t m (foldConstants (propagateMethod t m).value).value := by
  obtain ⟨hfit, hsame⟩ := h.propagate
  obtain ⟨hfit', hsame'⟩ := hfit.fold
  exact ⟨hfit', hsame.trans hsame'⟩

/-- Each node is counted at least once. -/
theorem nonLiterals_le_size (n : Node) : n.nonLiterals ≤ n.size := by
  induction n using Node.induction with
  | step n ih =>
    have hbelow : (n.children.map nonLiterals).sum ≤ (n.children.map size).sum := by
      generalize n.children = cs at ih
      induction cs with
      | nil => exact Nat.le_refl 0
      | cons c cs ih' =>
        obtain ⟨hc, hcs⟩ := List.forall_mem_cons.mp ih
        simp only [List.map_cons, List.sum_cons]
        exact Nat.add_le_add hc (ih' hcs)
    rw [nonLiterals_eq, size, fold_eq]
    change _ ≤ (n.children.map size).sum + 1
    split <;> omega

end Node

/-! ## Rounds -/

/-- Passes that count what they take from a measure come to an end, and what each round keeps is
kept by all of them. -/
theorem exists_alternate {α : Type} {propagate fold : α → Counted α} {μ : α → Nat}
    (hpropagate : ∀ a, (propagate a).count + μ (propagate a).value = μ a)
    (hfold : ∀ a, (fold a).count + μ (fold a).value = μ a) {R : α → α → Prop}
    (htrans : ∀ a b c, R a b → R b c → R a c) {I : α → Prop}
    (hround : ∀ a, I a → I (fold (propagate a).value).value ∧ R a (fold (propagate a).value).value)
    (left : Nat) (stats : OptimizationStats) (a : α) (ha : I a) (hleft : μ a < left) :
    ∃ b stats', alternate propagate fold left stats a = .ok (b, stats') ∧ R a b := by
  induction left generalizing a stats with
  | zero => exact absurd hleft (Nat.not_lt_zero _)
  | succ left ih =>
    obtain ⟨hI, hR⟩ := hround a ha
    unfold alternate
    by_cases hchanged : ((propagate a).isChanged || (fold (propagate a).value).isChanged) = true
    · have hp := hpropagate a
      have hf := hfold (propagate a).value
      simp only [Bool.or_eq_true, Counted.isChanged_iff] at hchanged
      obtain ⟨b, stats', halternate, hb⟩ := ih _ _ hI (by omega)
      refine ⟨b, stats', ?_, htrans _ _ _ hR hb⟩
      simp only [Bool.or_eq_true, Counted.isChanged_iff, if_pos hchanged]
      exact halternate
    · simp only [if_neg hchanged]
      exact ⟨_, _, rfl, hR⟩

/-- **The optimizer comes to an end, and every method behaves as before.** -/
theorem optimize_sameBehaviour {source : String} {root : Node} {table : SymbolTable}
    (h : Accepted source root table) :
    ∃ root' stats, optimize table root = .ok (root', stats) ∧
      List.Forall₂ (fun m m' => m'.kind.declaredName? = m.kind.declaredName? ∧
        ∀ w vars, SameBehaviour (m.runMethod table w vars) (m'.runMethod table w vars))
        root.methods root'.methods := by
  have hround (a : Node) (ha : ∀ m ∈ a.methods, m.IsFitMethod table) :
      (∀ m ∈ (foldConstants (propagateConstants table a).value).value.methods,
        m.IsFitMethod table) ∧
        List.Forall₂ (Node.SameMethod table) a.methods
          (foldConstants (propagateConstants table a).value).value.methods := by
    rw [methods_foldConstants, methods_propagateConstants, List.map_map]
    refine ⟨fun m hm => ?_, ?_⟩
    · obtain ⟨m', hm', rfl⟩ := List.mem_map.mp hm
      exact (ha m' hm').round.1
    · rw [List.forall₂_map_right_iff, List.forall₂_same]
      exact fun m hm => (ha m hm).round.2
  have hfit : ∀ m ∈ root.methods, m.IsFitMethod table := by
    intro m hm
    obtain ⟨head, params, locals, body, hkind, happroves⟩ := h.approves hm
    refine ⟨head, params, locals, body, hkind, fun c hc => (happroves.child ?_).assignsFit⟩
    rw [Node.children, hkind]
    exact List.mem_append_right _ hc
  obtain ⟨root', stats, hoptimize, hmethods⟩ := exists_alternate
    (I := fun a => ∀ m ∈ a.methods, m.IsFitMethod table)
    (R := fun a b => List.Forall₂ (Node.SameMethod table) a.methods b.methods)
    (count_propagateConstants table) Node.count_fold
    (fun _ _ _ => Node.forall₂_sameMethod_trans) hround (root.size + 1) {} root hfit
    (Nat.lt_succ_of_le root.nonLiterals_le_size)
  refine ⟨root', stats, hoptimize, hmethods.imp fun m m' hm => ⟨hm.1, fun w vars => ?_⟩⟩
  rw [hm.2 w vars]
  exact .refl _

/-- The method of an accepted program in which a constant is propagated and folded. -/
theorem optimize_sameBehaviour_sum : ∃ root table,
    Accepted "class A{int f(){int a;a=1;return a+1;}}" root table ∧ root.methods.length = 1 ∧
      ∃ root' stats, optimize table root = .ok (root', stats) ∧
        List.Forall₂ (fun m m' => m'.kind.declaredName? = m.kind.declaredName? ∧
          ∀ w vars, SameBehaviour (m.runMethod table w vars) (m'.runMethod table w vars))
          root.methods root'.methods := by
  obtain ⟨root, table, h, hp⟩ := Accepted.exists_of_any
    "class A{int f(){int a;a=1;return a+1;}}" (fun root _ => root.methods.length = 1)
    (by decide +kernel)
  exact ⟨root, table, h, of_decide_eq_true hp, optimize_sameBehaviour h⟩

end MiniJava
