import MiniJava.Proofs.Graph.Typing
import MiniJava.Proofs.Optimize.Schedule
import MiniJava.Proofs.Optimize.Simplified

/-!
# Optimizing keeps types

Both passes of the optimizer simplify a program that passes the checks: folding in any case, and
propagation because a variable is only ever replaced by a literal of its type
(`Node.simplified_foldConstants`, `Node.simplified_propagateConstants`). A simplified program passes
the checks as well (`Node.Sound.simplified`), so this goes on with the next pass.

The symbol table stays that of the program at first. Types matter most for calls to methods of other
classes: they have the type that is demanded of them, which may depend on neighbours that become
literals. The main theorem `Graph.typeOf?_eq_of_schedule` speaks of graphs, where such a demand is
looked for along the parents of a node.
-/

namespace MiniJava

variable {t : SymbolTable}

namespace Node

variable {around : Option Scope} {n : Node}

/-! ## Folding simplifies -/

theorem simplified_foldConstants (t : SymbolTable) (around : Option Scope) (n : Node) :
    Simplified t around n (foldConstants n).value := by
  induction n using Node.induction generalizing around with
  | step n ih =>
    have hmap : Simplified t around n (n.mapChildren folded) :=
      .mapChildren fun c hc => ih c hc _
    rcases folded_cases n with ⟨-, h⟩ | ⟨c, hc, h⟩
    · change Simplified t around n n.folded
      rwa [h]
    · obtain ⟨hlabel, hliterals⟩ := Kind.of_foldable? hc
      replace hlabel : n.label ∈ [.binary, .unary, .paren] := label_mapChildren folded n ▸ hlabel
      have hexpr : n.IsExpr := by
        cases hl : n.label <;> simp_all [IsExpr, Label.isExpression]
      have halike (sc : Scope) : sc.Alike (fun _ => True) n (n.become c) :=
        h ▸ (alike_and_sameRun_fold sc n).1
      have hcalls : ∀ m ∈ n.preorder, m.label ≠ .call := by
        intro m hm
        rcases mem_preorder.mp hm with rfl | ⟨c', hc', hm⟩
        · intro hcall
          rw [hcall] at hlabel
          simp at hlabel
        · obtain ⟨_, hliteral⟩ := hliterals c'.folded (by
            rw [← children, children_mapChildren]
            exact List.mem_map_of_mem hc')
          exact (ih c' hc' around).label_ne_call hliteral m hm
      change Simplified t around n n.folded
      rw [h]
      exact .literal c hexpr hcalls fun sc _ d =>
        ((halike sc).type d).symm.trans ((Constant.HoldsAt.become n c).typeOf? sc d)

/-! ## Propagation simplifies -/

variable {sc : Scope} {tracked : List String} {k : Known}

theorem simplified_substitute (hk : k.Fits sc tracked) (n : Node) :
    Simplified t (some sc) n (n.substitute k).value := by
  induction n using Node.induction with
  | step n ih =>
    by_cases hname : n.label = .varRef
    · obtain ⟨i, p, kind⟩ := n
      cases kind with
      | varRef name =>
        unfold substitute
        cases hc : k.get? name with
        | none => exact .refl t _ _
        | some c =>
          have hcalls : ∀ m ∈ Node.preorder ⟨i, p, .varRef name⟩, m.label ≠ .call :=
            List.forall_mem_singleton.mpr (by decide : Label.varRef ≠ .call)
          refine .literal (n := ⟨i, p, .varRef name⟩) c rfl hcalls fun sc' hsc d => ?_
          cases hsc
          exact (hk name c hc).2
      | _ => cases hname
    · cases hcompound : n.label.isCompound with
      | false =>
        rw [substitute_of_not_compound k hcompound hname]
        exact .refl t _ n
      | true =>
        have hlabel : n.label ≠ .methodDecl := by
          intro h
          rw [h] at hcompound
          cases hcompound
        rw [(substitute_of_compound k hcompound).1]
        refine .mapChildren ?_
        rw [n.scopeWithin_of_not_method t _ hlabel]
        exact ih

theorem forall₂_simplified_propagateAll (ns : List Node)
    (h : ∀ n ∈ ns, ∀ k : Known, k.Fits sc tracked →
      Simplified t (some sc) n (n.propagate tracked k).value.1 ∧
        (n.propagate tracked k).value.2.Fits sc tracked) (hk : k.Fits sc tracked) :
    List.Forall₂ (Simplified t (some sc)) ns (propagateAll tracked k ns).value.1 := by
  induction ns generalizing k with
  | nil => exact .nil
  | cons n ns ih =>
    obtain ⟨hn, hns⟩ := List.forall_mem_cons.mp h
    obtain ⟨hvalue, hfits⟩ := hn k hk
    exact .cons hvalue (ih hns hfits)

theorem simplified_propagate (htracked : sc.Tracks tracked) (h : n.AssignsFit sc)
    (hk : k.Fits sc tracked) : Simplified t (some sc) n (n.propagate tracked k).value.1 := by
  induction n using Node.induction generalizing k with
  | step n ih =>
    have ih {c : Node} (hc : c ∈ n.children) {k : Known} (hk : k.Fits sc tracked) :=
      ih c hc (h.child hc) hk
    have exprs (hlabel : n.label ≠ .methodDecl) :
        Simplified t (some sc) n (n.mapChildren fun c => (c.substitute k).value) := by
      refine .mapChildren ?_
      rw [n.scopeWithin_of_not_method t _ hlabel]
      exact fun c _ => simplified_substitute hk c
    obtain ⟨i, p, kind⟩ := n
    cases kind with
    | assign | arrayAssign | exprStmt => exact exprs nofun
    | returning value => cases value <;> exact exprs nofun
    | ifElse c thenBranch elseBranch =>
      have hc := simplified_substitute (t := t) hk c
      have hthen := ih (c := thenBranch) mem_second hk
      cases elseBranch with
      | none =>
        refine Simplified.keep (k := .ifElse (c, _) (thenBranch, _) none) ?_
        exact List.forall_mem_cons.mpr ⟨hc, List.forall_mem_singleton.mpr hthen⟩
      | some elseBranch =>
        have helse := ih (c := elseBranch) mem_third hk
        refine Simplified.keep (k := .ifElse (c, _) (thenBranch, _) (some (elseBranch, _))) ?_
        exact List.forall_mem_cons.mpr ⟨hc, List.forall_mem_cons.mpr
          ⟨hthen, List.forall_mem_singleton.mpr helse⟩⟩
    | whileLoop c body =>
      have hfits := (k.extends_eraseAll body.assignedNames).fits hk
      refine Simplified.keep (k := .whileLoop (c, _) (body, _)) ?_
      exact List.forall_mem_cons.mpr ⟨simplified_substitute hfits c,
        List.forall_mem_singleton.mpr (ih (c := body) mem_second hfits)⟩
    | block statements =>
      have hall := forall₂_simplified_propagateAll (t := t) statements
        (fun c hc k hk => ⟨ih hc hk, (propagated htracked (h.child hc) hk).fits⟩) hk
      obtain ⟨cs, hfst, hsnd, hcs⟩ := exists_pairs hall
      change Simplified t (some sc) ⟨i, p, .block statements⟩
        ⟨i, p, .block (propagateAll tracked k statements).value.1⟩
      rw [← hsnd, ← hfst]
      exact .keep (k := .block cs) hcs
    | _ => exact .refl t _ _

/-- Beside nodes that stay, others may be simplified. -/
theorem simplified_same {around : Option Scope} (ns : List Node) :
    ∀ x ∈ ns.map fun n => (n, n), Simplified t around x.1 x.2 :=
  List.forall_mem_map.mpr fun n _ => .refl t around n

theorem IsFitMethod.simplified {m : Node} (h : m.IsFitMethod t) (around : Option Scope) :
    Simplified t around m (propagateMethod t m).value := by
  obtain ⟨head, params, locals, body, hkind, hbody⟩ := h
  obtain ⟨i, p, kind⟩ := m
  cases hkind
  have htracked := tracks_trackedNames t head
  have hall := forall₂_simplified_propagateAll (t := t) body (fun c hc k hk =>
    ⟨simplified_propagate htracked (hbody c hc) hk, (propagated htracked (hbody c hc) hk).fits⟩)
    (Known.fits_empty _ (trackedNames t head))
  obtain ⟨cs, hfst, hsnd, hcs⟩ := exists_pairs hall
  have hkeep : Simplified t around ⟨i, p, _⟩ ⟨i, p, _⟩ := .keep
    (k := .methodDecl head (params.map fun n => (n, n)) (locals.map fun n => (n, n)) cs)
    (List.forall_mem_append.mpr ⟨List.forall_mem_append.mpr
      ⟨simplified_same params, simplified_same locals⟩, hcs⟩)
  simp only [Kind.map, List.map_map, Function.comp_def, List.map_id'] at hkeep
  rwa [hfst, hsnd] at hkeep

theorem forall₂_simplified_mapMethodsAmong {f : Node → Node} (items : List Node)
    (h : ∀ m ∈ methodsAmong items, Simplified t none m (f m)) :
    List.Forall₂ (Simplified t none) items (mapMethodsAmong f items) := by
  induction items with
  | nil => exact .nil
  | cons n ns ih =>
    obtain ⟨i, p, kind⟩ := n
    cases kind with
    | classDecl name superclass fields methods =>
      refine .cons ?_ (List.forall₂_same.mpr fun n _ => .refl t none n)
      have hkeep : Simplified t none ⟨i, p, _⟩ ⟨i, p, _⟩ := .keep
        (k := .classDecl name superclass (fields.map fun n => (n, n)) (methods.map fun m => (m, f m)))
        (List.forall_mem_append.mpr ⟨simplified_same fields, List.forall_mem_map.mpr h⟩)
      simpa only [Kind.map, List.map_map, Function.comp_def, List.map_id'] using hkeep
    | _ => exact .cons (.refl t none _) (ih h)

theorem simplified_mapMethods {f : Node → Node} {root : Node}
    (h : ∀ m ∈ root.methods, Simplified t none m (f m)) :
    Simplified t none root (root.mapMethods f) := by
  obtain ⟨i, p, kind⟩ := root
  cases kind with
  | program items =>
    obtain ⟨cs, hfst, hsnd, hcs⟩ :=
      exists_pairs (forall₂_simplified_mapMethodsAmong items h)
    change Simplified t none ⟨i, p, .program items⟩ ⟨i, p, .program (mapMethodsAmong f items)⟩
    rw [← hsnd, ← hfst]
    exact .keep (k := .program cs) hcs
  | _ => exact .refl t none _

/-- A pass of propagation simplifies a program in which constants are assigned to variables of their
types. -/
theorem simplified_propagateConstants {root : Node} (h : ∀ m ∈ root.methods, m.IsFitMethod t) :
    Simplified t none root (propagateConstants t root).value := by
  rw [value_propagateConstants]
  exact simplified_mapMethods fun m hm => (h m hm).simplified none

/-! ## Programs that pass the checks -/

/-- The tree of a program that passes the checks. -/
structure Sound (t : SymbolTable) (root : Node) : Prop where
  wellFormed : root.WellFormed
  isProgram : root.label = .program
  checked : analyze t root = []

namespace Sound

variable {root root' : Node}

theorem isFitMethod (h : root.Sound t) {m : Node} (hm : m ∈ root.methods) : m.IsFitMethod t := by
  obtain ⟨hpre, hlabel⟩ := mem_preorder_of_mem_methods hm
  have hlabel := hlabel h.wellFormed
  cases hkind : m.kind with
  | methodDecl head params locals body =>
    have happroves := approves_of_analyze h.wellFormed h.checked hpre hkind
    refine ⟨head, params, locals, body, hkind, fun c hc => (happroves.child ?_).assignsFit⟩
    rw [children, hkind]
    exact List.mem_append_right _ hc
  | _ => rw [label, hkind] at hlabel; cases hlabel

/-- **What is left of a program that is simplified passes the checks**, also if these know the
demands on calls in another way, provided that all sites have the same types in it. -/
theorem analyzeWith_eq_nil (h : root.Sound t) (hsimplified : Simplified t none root root')
    (p : Scope → Option (Nat → Ty))
    (htypes : ∀ s ∈ sites t root',
      (s.scope.withPlaced (p s.scope)).typeOf? s.demand s.node = s.scope.typeOf? s.demand s.node) :
    analyzeWith (fun head => (Scope.ofMethod t head).withPlaced (p (.ofMethod t head))) t root' =
      [] := by
  have hroot' := hsimplified.wellFormed h.wellFormed
  have hlabel' := hsimplified.label_eq_of rfl h.isProgram
  obtain ⟨hduplicates, hdeclared, hsites⟩ :=
    (analyzeWith_eq_nil_iff h.wellFormed h.isProgram (fun sc => sc) fun _ => rfl).mp h.checked
  refine (analyzeWith_eq_nil_iff hroot' hlabel' (fun sc => sc.withPlaced (p sc)) fun _ => rfl).mpr
    ⟨(hsimplified.checkDuplicates_eq h.wellFormed).trans hduplicates, fun x' hx' hdecl => ?_,
      fun s' hs' => ?_⟩
  · obtain ⟨x, hx, around, hsimplified⟩ := hsimplified.exists_mem_preorder hx'
    have hlabel : x.label = .varDecl := by
      rcases hsimplified.label_eq_or with hlabel | ⟨-, hexpr⟩
      · exact hlabel.symm.trans hdecl
      · rw [IsExpr, hdecl] at hexpr
        cases hexpr
    exact hsimplified.checkStructureAt_eq_nil (hdeclared x hx hlabel)
  · obtain ⟨⟨sc, d, n⟩, hs, hscope, hdemand, hsimplified⟩ := hsimplified.exists_site hs'
    obtain ⟨sc', d', n'⟩ := s'
    obtain rfl : sc' = sc := hscope
    obtain ⟨m, -, head, params, locals, body, -, rfl, -⟩ :=
      exists_method_of_mem_sitesWithin h.wellFormed hs
    obtain rfl : d' = d := hdemand
    exact Simplified.passes (Scope.ofMethod t head) (d := d') hsimplified
      (scopeWithin_of_mem_sitesWithin hs)
      (fun x hx => htypes _ (mem_sites_of_mem_zip hroot' hs' hx)) (hsites _ hs)

/-- **A simplified program passes the checks.** -/
theorem simplified (h : root.Sound t) (hsimplified : Simplified t none root root') :
    root'.Sound t := by
  refine ⟨hsimplified.wellFormed h.wellFormed, hsimplified.label_eq_of rfl h.isProgram,
    h.analyzeWith_eq_nil hsimplified (fun _ => none) fun s hs => ?_⟩
  obtain ⟨m, -, head, params, locals, body, -, hscope, -⟩ :=
    exists_method_of_mem_sitesWithin (hsimplified.wellFormed h.wellFormed) hs
  rw [hscope]
  rfl

end Sound

end Node

/-! ## Schedules -/

namespace Pass

variable {root : Node}

/-- A pass simplifies a program that passes the checks. -/
theorem simplified_onTree (h : root.Sound t) (p : Pass) :
    Node.Simplified t none root (p.onTree t root) := by
  cases p with
  | propagation => exact Node.simplified_propagateConstants fun m => h.isFitMethod
  | folding => exact Node.simplified_foldConstants t none root

/-- **After any passes in a row, a program that passes the checks does so still, and each site that is
left has the type that it had.** -/
theorem sound_allOnTree (h : root.Sound t) (ps : List Pass) :
    (allOnTree t ps root).Sound t ∧ ∀ s' ∈ sites t (allOnTree t ps root), ∃ s ∈ sites t root,
      s.node.id = s'.node.id ∧ s.scope = s'.scope ∧ s.demand = s'.demand ∧
        s'.scope.typeOf? s'.demand s'.node = s.scope.typeOf? s.demand s.node := by
  induction ps generalizing root with
  | nil => exact ⟨h, fun s hs => ⟨s, hs, rfl, rfl, rfl, rfl⟩⟩
  | cons p ps ih =>
    have hsimplified := p.simplified_onTree h
    obtain ⟨hsound, hsites⟩ := ih (h.simplified hsimplified)
    refine ⟨hsound, fun s'' hs'' => ?_⟩
    obtain ⟨s', hs', hid, hscope, hdemand, htype⟩ := hsites s'' hs''
    obtain ⟨s, hs, hscope', hdemand', hsimplified⟩ := hsimplified.exists_site hs'
    refine ⟨s, hs, hsimplified.id_eq.symm.trans hid, hscope'.symm.trans hscope,
      hdemand'.symm.trans hdemand, ?_⟩
    rw [htype, hscope', hdemand']
    exact hsimplified.alike.type s.demand

end Pass

theorem Accepted.sound {source : String} {root : Node} {table : SymbolTable}
    (h : Accepted source root table) : root.Sound table := by
  obtain ⟨raw, hparse, hread⟩ := h.tree
  obtain ⟨hroot, hlabel⟩ := wellFormed_of_parse hparse hread
  exact ⟨hroot, hlabel, h.checked⟩

namespace Graph

/-- **Optimizing keeps types.** After any passes in a row, a program that passed the checks passes
them with the same symbol table, and each node that can still be reached in a method was a node of
this method before and has the type that it had there. -/
theorem typeOf?_eq_of_schedule {source : String} {root : Node} {table : SymbolTable}
    (h : Accepted source root table) (ps : List Pass) :
    let g := Pass.allOnGraph table ps (ofTree root)
    analyzeWith (g.scopeOf table) table g.toTree = [] ∧ ∀ s ∈ sites table g.toTree,
      (∃ s' ∈ sites table root, s'.node.id = s.node.id ∧ s'.scope = s.scope) ∧
        g.typeOf? s.scope s.node.id = (ofTree root).typeOf? s.scope s.node.id := by
  intro g
  obtain ⟨raw, -, hread⟩ := h.tree
  have hroot : (ofTree root).Shows root := shows_ofTree hread
  have hg : g.Shows (Pass.allOnTree table ps root) := Pass.shows_allOnGraph table ps hroot
  obtain ⟨hsound, hsites⟩ := Pass.sound_allOnTree h.sound ps
  rw [hg.toTree]
  refine ⟨?_, fun s hs => ?_⟩
  · exact hsound.analyzeWith_eq_nil (.refl table none _)
      (fun sc => some (g.demandOf sc (g.typeOf? sc))) fun s hs => hg.typeOf?_withPlaced hs
  · obtain ⟨s', hs', hid, hscope, -, htype⟩ := hsites s hs
    refine ⟨⟨s', hs', hid, hscope⟩, ?_⟩
    rw [hg.typeOf?_eq hs, htype, ← hroot.typeOf?_eq hs', hid, hscope]

/-- The type of a call to an unknown method is that of its neighbour, which becomes a literal. -/
theorem typeOf?_eq_of_schedule_neighbour : ∃ root table,
    Accepted "import io;class A{boolean f(){int a;a=1;return io.g()==a;}}" root table ∧
      ((ofTree root).propagateConstants table).count = 1 ∧
      let g := Pass.allOnGraph table [.propagation, .folding] (ofTree root)
      analyzeWith (g.scopeOf table) table g.toTree = [] ∧ ∀ s ∈ sites table g.toTree,
        (∃ s' ∈ sites table root, s'.node.id = s.node.id ∧ s'.scope = s.scope) ∧
          g.typeOf? s.scope s.node.id = (ofTree root).typeOf? s.scope s.node.id := by
  obtain ⟨root, table, h, hcount⟩ := Accepted.exists_of_any
    "import io;class A{boolean f(){int a;a=1;return io.g()==a;}}"
    (fun root table => ((ofTree root).propagateConstants table).count = 1)
    (by decide +kernel)
  exact ⟨root, table, h, of_decide_eq_true hcount,
    typeOf?_eq_of_schedule h [.propagation, .folding]⟩

end Graph

end MiniJava
