import Mathlib.Data.List.Forall2
import MiniJava.Proofs.Optimize.Propagation
import MiniJava.Proofs.Typing.Checks

/-!
# Trees with some expressions simplified

`Node.Simplified` relates a tree to one in which some expressions, but no calls, have become
literals of their types. Both passes of the optimizer simplify a program in this sense; here is what
a tree keeps when it is simplified: the sorts of its nodes, so that it stays well-formed, what it
declares, and at each site that is left the type and what is demanded of it
(`Simplified.exists_site`).
-/

namespace MiniJava

variable {t : SymbolTable}

/-- The second tree is the first with some expressions replaced by literals of their types. If the
trees stand in no scope, the types do not matter. -/
inductive Node.Simplified (t : SymbolTable) : Option Scope → Node → Node → Prop
  | literal {around : Option Scope} {n : Node} (c : Constant) (hexpr : n.IsExpr)
      (hcalls : ∀ m ∈ n.preorder, m.label ≠ .call)
      (htype : ∀ sc ∈ around, ∀ d, sc.typeOf? d n = some c.type) :
      Simplified t around n (n.become c)
  | keep {around : Option Scope} {i : Nat} {p : Position} {k : Kind (Node × Node)}
      (below : ∀ x ∈ k.children,
        Simplified t (Node.scopeWithin t around ⟨i, p, k.map Prod.fst⟩) x.1 x.2) :
      Simplified t around ⟨i, p, k.map Prod.fst⟩ ⟨i, p, k.map Prod.snd⟩

namespace Node.Simplified

variable {around : Option Scope} {n n' : Node}

/-- Children may be simplified. -/
theorem mapChildren {f : Node → Node}
    (h : ∀ c ∈ n.children, Simplified t (n.scopeWithin t around) c (f c)) :
    Simplified t around n (n.mapChildren f) := by
  obtain ⟨i, p, k⟩ := n
  let pairs := k.map fun c => (c, f c)
  have hfst : pairs.map Prod.fst = k := Kind.map_fst_pairs f k
  have hsnd : pairs.map Prod.snd = k.map f := Kind.map_map ..
  have hkeep : Simplified t around ⟨i, p, pairs.map Prod.fst⟩ ⟨i, p, pairs.map Prod.snd⟩ := by
    refine .keep fun x hx => ?_
    rw [Kind.children_map] at hx
    obtain ⟨c, hc, rfl⟩ := List.mem_map.mp hx
    rw [hfst]
    exact h c hc
  rwa [hfst, hsnd] at hkeep

protected theorem refl (t : SymbolTable) (around : Option Scope) (n : Node) :
    Simplified t around n n := by
  induction n using Node.induction generalizing around with
  | step n ih =>
    have h := mapChildren (f := fun c => c) fun c hc => ih c hc (n.scopeWithin t around)
    rwa [mapChildren_of_forall fun _ _ => rfl] at h

/-! ## Calls -/

theorem isCall_eq_false {n : Node} (h : ∀ m ∈ n.preorder, m.label ≠ .call) : n.isCall = false := by
  induction n using Node.induction with
  | step n ih =>
    have hhere := h n n.mem_preorder_self
    have hbelow : ∀ c ∈ n.children, c.isCall = false := fun c hc =>
      ih c hc fun m hm => h m (mem_preorder_of_mem_children hc hm)
    obtain ⟨i, p, k⟩ := n
    cases k with
    | call => exact absurd rfl hhere
    | paren inner => exact hbelow inner List.mem_cons_self
    | _ => rfl

/-- There are no calls in what becomes a literal. -/
theorem label_ne_call (h : Simplified t around n n') {c : Constant} (hc : n'.literal? = some c) :
    ∀ m ∈ n.preorder, m.label ≠ .call := by
  cases h with
  | literal c' hexpr hcalls => exact hcalls
  | @keep around i p k below =>
    intro m hm
    rcases mem_preorder.mp hm with rfl | ⟨c', hc', -⟩
    · cases k with
      | call => cases hc
      | _ => exact nofun
    · cases k with
      | intLit | boolLit => cases hc'
      | _ => cases hc

/-! ## Sorts of nodes -/

theorem id_eq (h : Simplified t around n n') : n'.id = n.id := by
  cases h <;> rfl

theorem position_eq (h : Simplified t around n n') : n'.position = n.position := by
  cases h <;> rfl

theorem isExpr_become (n : Node) (c : Constant) : (n.become c).IsExpr := by
  cases c <;> rfl

/-- The sort of a node stays, unless it is an expression. -/
theorem label_eq_or (h : Simplified t around n n') :
    n'.label = n.label ∨ n.IsExpr ∧ n'.IsExpr := by
  cases h with
  | literal c hexpr => exact .inr ⟨hexpr, isExpr_become n c⟩
  | keep => exact .inl ((Kind.label_map _ _).trans (Kind.label_map _ _).symm)

theorem isExpr (h : Simplified t around n n') (hn : n.IsExpr) : n'.IsExpr := by
  rcases h.label_eq_or with h | ⟨-, h⟩
  · rwa [IsExpr, h]
  · exact h

theorem label_eq (h : Simplified t around n n') (hn : n.label.isExpression = false) :
    n'.label = n.label :=
  h.label_eq_or.resolve_right fun ⟨hexpr, _⟩ => Bool.false_ne_true (hn.symm.trans hexpr)

theorem label_eq_of (h : Simplified t around n n') {l : Label} (hl : l.isExpression = false)
    (hn : n.label = l) : n'.label = l :=
  (h.label_eq (hn ▸ hl)).trans hn

theorem isStmt (h : Simplified t around n n') (hn : n.IsStmt) : n'.IsStmt := by
  rwa [IsStmt, h.label_eq (Bool.eq_false_iff.mpr (hn.not_isExpr))]

/-- A literal or a node of the same sort may stand in the place of a child. -/
theorem fits {around : Option Scope} {k : Kind (Node × Node)}
    (h : ∀ x ∈ k.children, Simplified t around x.1 x.2) (hfits : (k.map Prod.fst).Fits) :
    (k.map Prod.snd).Fits := by
  have sort {cs : List (Node × Node)} {l : Label} (hl : l.isExpression = false)
      (hcs : ∀ x ∈ cs, x ∈ k.children) (hlabel : ∀ c ∈ cs.map Prod.fst, c.label = l) :
      ∀ c ∈ cs.map Prod.snd, c.label = l := by
    intro c hc
    obtain ⟨x, hx, rfl⟩ := List.mem_map.mp hc
    exact (h x (hcs x hx)).label_eq_of hl (hlabel x.1 (List.mem_map_of_mem hx))
  have stmts {cs : List (Node × Node)} (hcs : ∀ x ∈ cs, x ∈ k.children)
      (hstmt : ∀ c ∈ cs.map Prod.fst, c.IsStmt) : ∀ c ∈ cs.map Prod.snd, c.IsStmt := by
    intro c hc
    obtain ⟨x, hx, rfl⟩ := List.mem_map.mp hc
    exact (h x (hcs x hx)).isStmt (hstmt x.1 (List.mem_map_of_mem hx))
  have exprs (hexpr : ∀ c ∈ (k.map Prod.fst).children, c.IsExpr) :
      ∀ c ∈ (k.map Prod.snd).children, c.IsExpr := by
    rw [Kind.children_map] at hexpr ⊢
    intro c hc
    obtain ⟨x, hx, rfl⟩ := List.mem_map.mp hc
    exact (h x hx).isExpr (hexpr x.1 (List.mem_map_of_mem hx))
  cases k with
  | program items =>
    intro c hc
    obtain ⟨x, hx, rfl⟩ := List.mem_map.mp hc
    exact (hfits x.1 (List.mem_map_of_mem hx)).imp ((h x hx).label_eq_of rfl)
      ((h x hx).label_eq_of rfl)
  | classDecl name superclass fields methods =>
    obtain ⟨hname, hfields, hmethods⟩ := hfits
    exact ⟨hname, sort rfl (fun _ => List.mem_append_left _) hfields,
      sort rfl (fun _ => List.mem_append_right _) hmethods⟩
  | methodDecl head params locals body =>
    obtain ⟨hparams, hlocals, hbody⟩ := hfits
    exact ⟨sort rfl (fun _ hx => List.mem_append_left _ (List.mem_append_left _ hx)) hparams,
      sort rfl (fun _ hx => List.mem_append_left _ (List.mem_append_right _ hx)) hlocals,
      stmts (fun _ => List.mem_append_right _) hbody⟩
  | ifElse c thenBranch elseBranch =>
    obtain ⟨hc, hthen, helse⟩ := hfits
    refine ⟨(h c List.mem_cons_self).isExpr hc,
      (h thenBranch mem_second).isStmt hthen, ?_⟩
    cases elseBranch with
    | none => exact nofun
    | some elseBranch =>
      have helse' := (h elseBranch mem_third).isStmt (helse _ rfl)
      intro c hc
      cases hc
      exact helse'
  | whileLoop c body =>
    exact ⟨(h c List.mem_cons_self).isExpr hfits.1,
      (h body mem_second).isStmt hfits.2⟩
  | block statements => exact stmts (fun _ hx => hx) hfits
  | varRef | newObject => exact hfits
  | _ => exact exprs hfits

theorem wellFormed_become (n : Node) (c : Constant) : (n.become c).WellFormed := by
  cases c <;> exact .intro nofun nofun

/-- **A tree stays well-formed when it is simplified.** -/
theorem wellFormed (h : Simplified t around n n') (hn : n.WellFormed) : n'.WellFormed := by
  induction h with
  | literal c => exact wellFormed_become _ c
  | @keep around i p k below ih =>
    refine .intro (fits below hn.fits) fun c hc => ?_
    rw [children, Kind.children_map] at hc
    obtain ⟨x, hx, rfl⟩ := List.mem_map.mp hc
    refine ih x hx (hn.of_mem_children ?_)
    rw [children, Kind.children_map]
    exact List.mem_map_of_mem hx

/-- Each node that is left was there before. -/
theorem exists_mem_preorder (h : Simplified t around n n') {x' : Node} (hx' : x' ∈ n'.preorder) :
    ∃ x ∈ n.preorder, ∃ around', Simplified t around' x x' := by
  induction h with
  | @literal around n c hexpr hcalls htype =>
    have hleaf : (n.become c).children = [] := by cases c <;> rfl
    rcases mem_preorder.mp hx' with rfl | ⟨c', hc', -⟩
    · exact ⟨n, n.mem_preorder_self, around, .literal c hexpr hcalls htype⟩
    · rw [hleaf] at hc'
      cases hc'
  | @keep around i p k below ih =>
    rcases mem_preorder.mp hx' with rfl | ⟨c', hc', hx'⟩
    · exact ⟨_, mem_preorder_self _, around, .keep below⟩
    · rw [children, Kind.children_map] at hc'
      obtain ⟨y, hy, rfl⟩ := List.mem_map.mp hc'
      obtain ⟨x, hx, h⟩ := ih y hy hx'
      refine ⟨x, mem_preorder_of_mem_children ?_ hx, h⟩
      rw [children, Kind.children_map]
      exact List.mem_map_of_mem hy

/-! ## Declarations -/

/-- An expression is neither a declaration nor a statement. -/
theorem of_isExpr {n : Node} (h : n.IsExpr) :
    n.kind.declaredName? = none ∧ SymbolTable.isVarargsParam n = false ∧
      n.alwaysReturns = false := by
  obtain ⟨i, p, k⟩ := n
  cases k with
  | program | importDecl | classDecl | varDecl | methodDecl | param | assign | arrayAssign
  | returning | ifElse | whileLoop | block | exprStmt => cases h
  | _ => exact ⟨rfl, rfl, rfl⟩

theorem declaredName?_eq (h : Simplified t around n n') :
    n'.kind.declaredName? = n.kind.declaredName? := by
  cases h with
  | literal c hexpr => rw [(of_isExpr hexpr).1, (of_isExpr (isExpr_become n c)).1]
  | @keep around i p k below => cases k <;> rfl

theorem isVarargsParam_eq (h : Simplified t around n n') :
    SymbolTable.isVarargsParam n' = SymbolTable.isVarargsParam n := by
  cases h with
  | literal c hexpr => rw [(of_isExpr hexpr).2.1, (of_isExpr (isExpr_become n c)).2.1]
  | @keep around i p k below => cases k <;> rfl

theorem lastReturns_eq {cs : List (Node × Node)}
    (h : ∀ x ∈ cs, x.2.alwaysReturns = x.1.alwaysReturns) :
    lastReturns (cs.map Prod.snd) = lastReturns (cs.map Prod.fst) := by
  induction cs with
  | nil => rfl
  | cons x cs ih =>
    obtain ⟨hx, hcs⟩ := List.forall_mem_cons.mp h
    cases cs with
    | nil => exact hx
    | cons => exact ih hcs

theorem alwaysReturns_eq (h : Simplified t around n n') :
    n'.alwaysReturns = n.alwaysReturns := by
  induction h with
  | literal c hexpr => rw [(of_isExpr hexpr).2.2, (of_isExpr (isExpr_become _ c)).2.2]
  | @keep around i p k below ih =>
    cases k with
    | ifElse c thenBranch elseBranch =>
      cases elseBranch with
      | none => rfl
      | some elseBranch =>
        have hthen := ih thenBranch mem_second
        have helse := ih elseBranch mem_third
        exact congrArg₂ (· && ·) hthen helse
    | block statements => exact lastReturns_eq ih
    | _ => rfl

/-- **What breaks no rule of structure breaks none when it is simplified.** -/
theorem checkStructureAt_eq_nil (h : Simplified t around n n') {sc : Option Scope}
    (hcheck : checkStructureAt t (sc, n) = []) : checkStructureAt t (sc, n') = [] := by
  cases h with
  | literal c => cases c <;> rfl
  | @keep around i p k below =>
    cases k with
    | methodDecl head params locals body =>
      have hvarargs (hcheck : checkVarargsPlace (params.map Prod.fst) = []) :
          checkVarargsPlace (params.map Prod.snd) = [] := by
        simp only [checkVarargsPlace, List.map_eq_nil_iff, List.filter_eq_nil_iff,
          ← List.map_dropLast, List.forall_mem_map] at hcheck ⊢
        intro x hx
        have hmem : x ∈ params ++ locals ++ body :=
          List.mem_append_left _ (List.mem_append_left _ ((List.dropLast_sublist _).mem hx))
        rw [(below x hmem).isVarargsParam_eq]
        exact hcheck x hx
      have hreturns : lastReturns (body.map Prod.snd) = lastReturns (body.map Prod.fst) :=
        lastReturns_eq fun x hx => (below x (List.mem_append_right _ hx)).alwaysReturns_eq
      simp only [Kind.map, checkStructureAt, List.append_eq_nil_iff] at hcheck ⊢
      obtain ⟨⟨⟨hstatic, htype⟩, hlast⟩, hreturn⟩ := hcheck
      rw [hreturns]
      exact ⟨⟨⟨hstatic, htype⟩, hvarargs hlast⟩, hreturn⟩
    | _ => exact hcheck

theorem duplicatesAmong_eq (violation : String → Violation) (cs : List (Node × Node))
    (h : ∀ x ∈ cs, Simplified t around x.1 x.2) :
    duplicatesAmong violation (cs.map Prod.snd) = duplicatesAmong violation (cs.map Prod.fst) := by
  have hdeclared : (cs.map Prod.snd).filterMap
        (fun n => n.kind.declaredName?.map fun name => (name, n.position)) =
      (cs.map Prod.fst).filterMap
        fun n => n.kind.declaredName?.map fun name => (name, n.position) := by
    rw [List.filterMap_map, List.filterMap_map]
    refine List.filterMap_congr fun x hx => ?_
    simp only [Function.comp_apply]
    rw [(h x hx).declaredName?_eq, (h x hx).position_eq]
  unfold duplicatesAmong
  rw [hdeclared]

/-- Expressions declare nothing. -/
theorem duplicatesFrom_of_isExpr {ns : List Node} (h : ∀ n ∈ ns, n.IsExpr) (seen : List String)
    (rest : List Node) : duplicatesFrom seen (ns ++ rest) = duplicatesFrom seen rest := by
  induction ns with
  | nil => rfl
  | cons n ns ih =>
    obtain ⟨hn, hns⟩ := List.forall_mem_cons.mp h
    rw [List.cons_append, ← ih hns]
    obtain ⟨i, p, k⟩ := n
    cases k with
    | importDecl | classDecl | methodDecl => cases hn
    | _ => rfl

/-- **When a tree is simplified, no name is declared twice that was not before.** This holds in
front of any nodes, since the walk of the check goes on with them. -/
theorem duplicatesFrom_eq (h : Simplified t around n n') (hn : n.WellFormed)
    {rest rest' : List Node}
    (hrest : ∀ seen, duplicatesFrom seen rest' = duplicatesFrom seen rest) (seen : List String) :
    duplicatesFrom seen (n'.preorder ++ rest') = duplicatesFrom seen (n.preorder ++ rest) := by
  induction h generalizing seen rest rest' with
  | @literal around n c hexpr =>
    have hbefore : ∀ m ∈ n.preorder, m.IsExpr := fun m => hn.isExpr_of_mem_preorder hexpr
    have hafter : ∀ m ∈ (n.become c).preorder, m.IsExpr := fun m =>
      (wellFormed_become n c).isExpr_of_mem_preorder (isExpr_become n c)
    rw [duplicatesFrom_of_isExpr hbefore, duplicatesFrom_of_isExpr hafter, hrest]
  | @keep around i p k below ih =>
    have hchildren : ∀ x ∈ k.children, x.1.WellFormed := by
      intro x hx
      refine hn.of_mem_children ?_
      rw [children, Kind.children_map]
      exact List.mem_map_of_mem hx
    have hbelow (seen : List String) :
        duplicatesFrom seen ((k.children.map Prod.snd).flatMap preorder ++ rest') =
          duplicatesFrom seen ((k.children.map Prod.fst).flatMap preorder ++ rest) := by
      clear hn
      generalize k.children = cs at below ih hchildren
      induction cs generalizing seen with
      | nil => exact hrest seen
      | cons x cs ih' =>
        simp only [List.forall_mem_cons] at below ih hchildren
        simp only [List.map_cons, List.flatMap_cons, List.append_assoc]
        exact ih.1 hchildren.1 (fun seen => ih' seen below.2 ih.2 hchildren.2) seen
    rw [preorder_eq, preorder_eq ⟨i, p, k.map Prod.fst⟩, children, children, Kind.children_map,
      Kind.children_map, List.cons_append, List.cons_append]
    cases k with
    | importDecl path =>
      simp only [Kind.map, duplicatesFrom, hbelow]
    | classDecl name superclass fields methods =>
      have hfields := fun violation => duplicatesAmong_eq violation fields
        fun x hx => below x (List.mem_append_left _ hx)
      have hmethods := fun violation => duplicatesAmong_eq violation methods
        fun x hx => below x (List.mem_append_right _ hx)
      simp only [Kind.map, duplicatesFrom, hbelow, hfields, hmethods]
    | methodDecl head params locals body =>
      have hparams := fun violation => duplicatesAmong_eq violation params
        fun x hx => below x (List.mem_append_left _ (List.mem_append_left _ hx))
      have hlocals := fun violation => duplicatesAmong_eq violation locals
        fun x hx => below x (List.mem_append_left _ (List.mem_append_right _ hx))
      simp only [Kind.map, duplicatesFrom, hbelow, hparams, hlocals]
    | _ => exact hbelow seen

theorem checkDuplicates_eq (h : Simplified t around n n') (hn : n.WellFormed) :
    checkDuplicates n' = checkDuplicates n := by
  have heq := h.duplicatesFrom_eq hn (fun seen => Eq.refl (duplicatesFrom seen [])) []
  rwa [List.append_nil, List.append_nil] at heq

/-! ## Types -/

/-- **In the scope of the trees the types are the same.** No condition on variables is needed. -/
theorem alike {sc : Scope} (h : Simplified t (some sc) n n') :
    sc.Alike (fun _ => False) n n' := by
  generalize haround : some sc = around at h
  induction h with
  | literal c hexpr hcalls htype =>
    refine (Constant.HoldsAt.become _ c).alike sc (isCall_eq_false hcalls)
      (htype sc haround.symm) ?_
    exact fun _ _ _ h => h.elim
  | @keep around i p k below ih =>
    by_cases hlabel : k.label = .methodDecl
    · cases k with
      | methodDecl => exact ⟨rfl, fun _ => rfl, fun _ _ _ h => h.elim⟩
      | _ => cases hlabel
    · have hscope := Node.scopeWithin_of_not_method t around (n := ⟨i, p, k.map Prod.fst⟩)
        (fun h => hlabel ((Kind.label_map _ _).symm.trans h))
      exact .of_pairs fun x hx => ih x hx (haround.trans hscope.symm)

end Node.Simplified

/-! ## Within one scope -/

namespace Node.Simplified

/-- **Induction on a simplified tree in a scope.** Below it there is no method, so the scope is the
same everywhere. -/
theorem within {sc : Scope} {motive : Node → Node → Prop}
    (literal : ∀ (n : Node) (c : Constant), n.IsExpr → (∀ m ∈ n.preorder, m.label ≠ .call) →
      (∀ d, sc.typeOf? d n = some c.type) → motive n (n.become c))
    (keep : ∀ (i : Nat) (p : Position) (k : Kind (Node × Node)),
      Simplified t (some sc) ⟨i, p, k.map Prod.fst⟩ ⟨i, p, k.map Prod.snd⟩ →
      (∀ x ∈ k.children, x.1 ∈ children ⟨i, p, k.map Prod.fst⟩ ∧ Simplified t (some sc) x.1 x.2 ∧
        motive x.1 x.2) →
      motive ⟨i, p, k.map Prod.fst⟩ ⟨i, p, k.map Prod.snd⟩)
    {n n' : Node} (h : Simplified t (some sc) n n')
    (hmethods : ∀ m ∈ n.preorder, m.label ≠ .methodDecl) : motive n n' := by
  generalize haround : some sc = around at h
  induction h with
  | @literal around n c hexpr hcalls htype =>
    exact literal n c hexpr hcalls (htype sc haround.symm)
  | @keep around i p k below ih =>
    have hscope := scopeWithin_of_not_method t around (hmethods _ (mem_preorder_self _))
    refine keep i p k (haround ▸ .keep below) fun x hx => ?_
    have hmem : x.1 ∈ children ⟨i, p, k.map Prod.fst⟩ := by
      rw [children, Kind.children_map]
      exact List.mem_map_of_mem hx
    exact ⟨hmem, haround.trans hscope.symm ▸ below x hx,
      ih x hx (fun m hm => hmethods m (mem_preorder_of_mem_children hmem hm))
        (haround.trans hscope.symm)⟩

end Node.Simplified

/-! ## Sites -/

namespace Node.Simplified

variable {around : Option Scope} {n n' : Node}

theorem scopeWithin_eq (h : Simplified t around n n') :
    n'.scopeWithin t around = n.scopeWithin t around := by
  cases h with
  | literal c hexpr =>
    rw [scopeWithin_of_not_method t around hexpr.not_method,
      scopeWithin_of_not_method t around (isExpr_become n c).not_method]
  | @keep around i p k below => cases k <;> rfl

/-- **Each site that is left was a site before**, with the same number, in the same scope, of which
the same was demanded. -/
theorem exists_site (h : Simplified t around n n') {d : Ty} {s' : Site}
    (hs : s' ∈ sitesWithin t n' around d) :
    ∃ s ∈ sitesWithin t n around d, s'.scope = s.scope ∧ s'.demand = s.demand ∧
      Simplified t (some s.scope) s.node s'.node := by
  induction h generalizing d s' with
  | @literal around n c hexpr hcalls htype =>
    have hsimplified : Simplified t around n (n.become c) := .literal c hexpr hcalls htype
    have hscope := scopeWithin_of_not_method t around hexpr.not_method
    have hscope' := hsimplified.scopeWithin_eq.trans hscope
    have hleaf : (n.become c).children = [] := by cases c <;> rfl
    cases around with
    | none =>
      obtain ⟨c', hc', -⟩ := (mem_sitesWithin_none hscope').mp hs
      rw [hleaf] at hc'
      cases hc'
    | some sc =>
      rcases (mem_sitesWithin_some hscope').mp hs with rfl | ⟨x, hx, -⟩
      · exact ⟨⟨sc, d, n⟩, (mem_sitesWithin_some hscope).mpr (.inl rfl), rfl, rfl, hsimplified⟩
      · rw [hleaf] at hx
        cases hx
  | @keep around i p k below ih =>
    have hsame := (Simplified.keep below).scopeWithin_eq
    cases hscope : scopeWithin t around ⟨i, p, k.map Prod.fst⟩ with
    | none =>
      obtain ⟨c', hc', hs⟩ := (mem_sitesWithin_none (hsame.trans hscope)).mp hs
      rw [children, Kind.children_map] at hc'
      obtain ⟨x, hx, rfl⟩ := List.mem_map.mp hc'
      rw [hscope] at ih
      obtain ⟨s, hs, hrest⟩ := ih x hx hs
      refine ⟨s, (mem_sitesWithin_none hscope).mpr ⟨x.1, ?_, hs⟩, hrest⟩
      rw [children, Kind.children_map]
      exact List.mem_map_of_mem hx
    | some sc =>
      rcases (mem_sitesWithin_some (hsame.trans hscope)).mp hs with rfl | ⟨⟨c', d'⟩, hc', hs⟩
      · refine ⟨⟨sc, d, _⟩, (mem_sitesWithin_some hscope).mpr (.inl rfl), rfl, rfl,
          .keep fun x hx => ?_⟩
        rw [← hscope, scopeWithin_scopeWithin]
        exact below x hx
      · rw [hscope] at below ih
        rw [children, Kind.children_map, Scope.Alike.demands fun x hx => (below x hx).alike,
          List.zip_map_left] at hc'
        obtain ⟨⟨x, d''⟩, hx, hpair⟩ := List.mem_map.mp hc'
        cases hpair
        obtain ⟨s, hs, hrest⟩ := ih x (List.of_mem_zip hx).1 hs
        refine ⟨s, (mem_sitesWithin_some hscope).mpr (.inr ⟨(x.1, d''), ?_, hs⟩), hrest⟩
        rw [children, Kind.children_map, List.zip_map_left]
        exact List.mem_map.mpr ⟨(x, d''), hx, rfl⟩

/-- **What passes the checks at a site passes them when it is simplified**, also if the demands on
calls are known in another way, provided that the types of its children are the same in this way. -/
theorem passes (sc : Scope) {p : Option (Nat → Ty)} {d : Ty}
    (h : Simplified sc.table (some sc) n n') (hscope : n.scopeWithin sc.table (some sc) = some sc)
    (htypes : ∀ x ∈ n'.children.zip (sc.demands d n'),
      (sc.withPlaced p).typeOf? x.2 x.1 = sc.typeOf? x.2 x.1)
    (hpasses : sc.Passes n) : (sc.withPlaced p).Passes n' := by
  cases h with
  | literal c => cases c <;> exact ⟨rfl, rfl, rfl⟩
  | @keep _ i pos k below =>
    have hkeep := Simplified.keep below
    rw [hscope] at below
    have hsame : ∀ x ∈ k.children.zip (sc.demands d ⟨i, pos, k.map Prod.fst⟩),
        sc.SameType p x.2 x.1.1 x.1.2 := by
      intro x hx
      have halike := (below x.1 (List.of_mem_zip hx).1).alike
      refine ⟨halike.isCall, (htypes (x.1.2, x.2) ?_).trans (halike.type x.2)⟩
      rw [children, Kind.children_map, Scope.Alike.demands fun x hx => (below x hx).alike,
        List.zip_map_left]
      exact List.mem_map.mpr ⟨x, hx, rfl⟩
    refine ⟨?_, Scope.checkTypesAt_eq_nil hsame hpasses.types,
      Scope.checkNamesAt_eq_nil hsame hpasses.names⟩
    refine hkeep.checkStructureAt_eq_nil ?_
    rw [Scope.checkStructureAt_withPlaced]
    exact hpasses.structured

end Node.Simplified

end MiniJava
