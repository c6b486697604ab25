import MiniJava.Proofs.Optimize.Congruence
import MiniJava.Proofs.Optimize.Fixpoint

/-!
# Looking ahead

`Node.lookAhead` propagates constants through a statement like the pass does, but takes a value that
is going to fold to a literal as known already. What it leaves folds to the same whether the
statement has been folded before or not (`folded_lookAhead_folded`), because folding in front of a
substitution makes no difference to what is folded behind it (`folded_substituted_folded`). A pass of
propagation knows no more than looking ahead does, so it makes no difference either
(`lookAhead_propagate`). Where both passes leave a statement alone, looking ahead does the same as
the pass (`lookAhead_of_fixed`).
-/

namespace MiniJava

/-! ## What is known -/

namespace Known.Extends

variable {k k' l l' : Known}

theorem meet (h : k.Extends l) (h' : k'.Extends l') : (k.meet k').Extends (l.meet l') := by
  intro x c hx
  have hl := h x c (l.extends_meet_left l' x c hx)
  have hl' := h' x c (l.extends_meet_right l' x c hx)
  rw [get?_meet, hl, hl', if_pos rfl]

theorem eraseAll (h : k.Extends l) (names : List String) :
    (k.eraseAll names).Extends (l.eraseAll names) := by
  intro x c hx
  rw [get?_eraseAll] at hx ⊢
  split at hx
  · cases hx
  · rename_i hmem
    rw [if_neg hmem]
    exact h x c hx

/-- Behind an assignment more is known if it was so in front of it and of the value. -/
theorem assign (h : k.Extends l) {value value' : Option Constant}
    (hvalue : ∀ c, value' = some c → value = some c) (tracked : List String) (target : String) :
    (k.assign tracked target value).Extends (l.assign tracked target value') := by
  unfold Known.assign
  by_cases htracked : tracked.contains target = true
  · simp only [if_pos htracked]
    intro x c hx
    cases value' with
    | some c' =>
      rw [hvalue c' rfl]
      rw [get?_insert] at hx ⊢
      split at hx
      · rename_i heq
        rw [if_pos heq, hx]
      · rename_i hne
        rw [if_neg hne]
        exact h x c hx
    | none =>
      rw [get?_erase] at hx
      split at hx
      · cases hx
      · rename_i hne
        cases value with
        | none => rw [get?_erase, if_neg hne, h x c hx]
        | some c' => rw [get?_insert, if_neg hne, h x c hx]
  · simp only [if_neg htracked]
    exact h

end Known.Extends

theorem map_eq_self_iff {α : Type} {f : α → α} {as : List α} :
    as.map f = as ↔ ∀ a ∈ as, f a = a := by
  have h := List.map_eq_map_iff (f := f) (g := id) (l := as)
  rwa [List.map_id] at h

namespace Node

/-! ## Expressions -/

/-- The tree after a pass of folding. -/
def folded (n : Node) : Node := (foldConstants n).value

/-- The expression with its known variables replaced. -/
def substituted (k : Known) (n : Node) : Node := (n.substitute k).value

variable {k j : Known} {n : Node}

theorem folded_eq (n : Node) : n.folded = (n.mapChildren folded).foldHere.value := value_rewrite n

/-- A node is folded when its parts are, or it is a literal now. -/
theorem folded_cases (n : Node) :
    (n.mapChildren folded).kind.foldable? literal? = none ∧ n.folded = n.mapChildren folded ∨
      ∃ c, (n.mapChildren folded).kind.foldable? literal? = some c ∧ n.folded = n.become c := by
  rw [folded_eq]
  unfold foldHere
  cases h : (n.mapChildren folded).kind.foldable? literal? with
  | none => exact .inl ⟨rfl, rfl⟩
  | some c => exact .inr ⟨c, rfl, rfl⟩

theorem folded_of_literal {c : Constant} (h : n.literal? = some c) : n.folded = n := by
  unfold folded
  rw [foldConstants_of_literal h]
  rfl

theorem literal?_become (n : Node) (c : Constant) : (n.become c).literal? = some c :=
  Constant.HoldsAt.become n c

/-- Folding has nothing left to do after a pass of folding. -/
theorem folded_folded (n : Node) : n.folded.folded = n.folded := by
  induction n using induction with
  | step n ih =>
    rcases folded_cases n with ⟨hnone, h⟩ | ⟨c, -, h⟩
    · have hsame : (n.mapChildren folded).mapChildren folded = n.mapChildren folded := by
        rw [mapChildren_mapChildren]
        exact mapChildren_congr ih
      rw [h, folded_eq, hsame]
      unfold foldHere
      rw [hnone]
      rfl
    · rw [h]
      exact folded_of_literal (literal?_become n c)

theorem substituted_of_literal {c : Constant} (h : n.literal? = some c) (k : Known) :
    n.substituted k = n := by
  rw [Constant.HoldsAt.eq_become h]
  cases c <;> rfl

theorem substituted_of_compound (k : Known) (h : n.label.isCompound = true) :
    n.substituted k = n.mapChildren (substituted k) :=
  (substitute_of_compound k h).1

theorem substituted_of_not_compound (k : Known) (h : n.label.isCompound = false)
    (hname : n.label ≠ .varRef) : n.substituted k = n := by
  unfold substituted
  rw [substitute_of_not_compound k h hname]
  rfl

theorem label_mapChildren (f : Node → Node) (n : Node) : (n.mapChildren f).label = n.label :=
  Kind.label_map f n.kind

/-- Only operations and parentheses are folded. -/
theorem folded_of_not_mem {n : Node} (h : n.label ∉ [.binary, .unary, .paren]) :
    n.folded = n.mapChildren folded := by
  rcases folded_cases n with ⟨-, hfolded⟩ | ⟨c, hc, -⟩
  · exact hfolded
  · have hlabel := (Kind.of_foldable? hc).1
    exact absurd (label_mapChildren folded n ▸ hlabel) h

/-- **Folding before a substitution makes no difference to what is folded behind it.** -/
theorem folded_substituted_folded (k : Known) (n : Node) :
    (n.folded.substituted k).folded = (n.substituted k).folded := by
  induction n using induction with
  | step n ih =>
    cases hcompound : n.label.isCompound with
    | true =>
      have hsub := substituted_of_compound k hcompound
      have hparts : ((n.mapChildren folded).mapChildren (substituted k)).mapChildren folded =
          (n.mapChildren (substituted k)).mapChildren folded := by
        simp only [mapChildren_mapChildren]
        exact mapChildren_congr ih
      rcases folded_cases n with ⟨-, h⟩ | ⟨c, hc, h⟩
      · rw [h, substituted_of_compound k ((label_mapChildren folded n).symm ▸ hcompound), hsub,
          folded_eq, hparts, ← folded_eq]
      · -- What is folded without the substitution is folded with it, and to the same literal.
        have hparts : (n.mapChildren fun m => (m.substituted k).folded).kind.foldable? literal? =
            some c := by
          change (n.kind.map _).foldable? literal? = some c at hc ⊢
          rw [Kind.foldable?_map] at hc ⊢
          rw [← hc]
          refine Kind.foldable?_congr fun m hm => ?_
          obtain ⟨c', hc'⟩ := (Kind.of_foldable? hc).2 m hm
          rw [← ih m hm, substituted_of_literal hc', folded_of_literal hc']
        have hliteral := literal?_become n c
        rw [h, substituted_of_literal hliteral, folded_of_literal hliteral, hsub, folded_eq,
          mapChildren_mapChildren]
        unfold foldHere
        rw [hparts]
        rfl
    | false =>
      have hnot : n.label ∉ [.binary, .unary, .paren] := by
        intro hmem
        cases hl : n.label <;> simp_all [Label.isCompound]
      by_cases hname : n.label = .varRef
      · have hfolded : n.folded = n := by
          obtain ⟨i, p, kind⟩ := n
          cases kind with
          | varRef => rfl
          | _ => cases hname
        rw [hfolded]
      · have hlabel : n.folded.label = n.label := by
          rw [folded_of_not_mem hnot, label_mapChildren]
        rw [substituted_of_not_compound k (hlabel ▸ hcompound) (hlabel ▸ hname),
          substituted_of_not_compound k hcompound hname, folded_folded]

/-- A substitution by less that is known, before one by more, makes no difference. -/
theorem substituted_substituted (h : k.Extends j) (n : Node) :
    (n.substituted j).substituted k = n.substituted k := by
  induction n using induction with
  | step n ih =>
    by_cases hname : n.label = .varRef
    · obtain ⟨i, p, kind⟩ := n
      cases kind with
      | varRef name =>
        unfold substituted
        simp only [substitute]
        cases hj : j.get? name with
        | none => rfl
        | some c =>
          rw [h name c hj]
          exact substituted_of_literal (literal?_become ⟨i, p, .varRef name⟩ c) k
      | _ => cases hname
    · cases hcompound : n.label.isCompound with
      | false => rw [substituted_of_not_compound j hcompound hname]
      | true =>
        have hlabel := (label_mapChildren (substituted j) n).symm ▸ hcompound
        rw [substituted_of_compound j hcompound, substituted_of_compound k hlabel,
          mapChildren_mapChildren, substituted_of_compound k hcompound]
        exact mapChildren_congr ih

/-! ## Assigned variables -/

theorem assignedNames_eq (n : Node) :
    n.assignedNames = (match n.kind with
      | .assign target _ => [target]
      | _ => []) ++ n.children.flatMap assignedNames := by
  unfold assignedNames
  rw [preorder_eq, List.filterMap_cons, List.filterMap_flatMap]
  obtain ⟨i, p, kind⟩ := n
  cases kind <;> rfl

theorem congruence_assignedNames : Congruence fun n n' => n'.assignedNames = n.assignedNames where
  of_children {i p k} h := by
    rw [assignedNames_eq, assignedNames_eq ⟨i, p, k.map Prod.fst⟩, children, Kind.children_map,
      children, Kind.children_map, List.flatMap_map, List.flatMap_map, List.flatMap_congr h]
    cases k <;> rfl

theorem assignedNames_of_literal {c : Constant} (h : n.literal? = some c) :
    n.assignedNames = [] := by
  rw [Constant.HoldsAt.eq_become h]
  cases c <;> rfl

theorem assignedNames_folded (n : Node) : n.folded.assignedNames = n.assignedNames := by
  induction n using induction with
  | step n ih =>
    have hparts : (n.mapChildren folded).assignedNames = n.assignedNames :=
      congruence_assignedNames.mapChildren ih
    rw [← hparts]
    rcases folded_cases n with ⟨-, h⟩ | ⟨c, hc, h⟩
    · rw [h]
    · -- Nothing is assigned in the parts, which are literals, nor by an operation.
      obtain ⟨hlabel, hparts⟩ := Kind.of_foldable? hc
      have hbelow : (n.mapChildren folded).children.flatMap assignedNames = [] := by
        refine List.flatMap_eq_nil_iff.mpr fun m hm => ?_
        obtain ⟨c', hc'⟩ := hparts m hm
        exact assignedNames_of_literal hc'
      rw [h, assignedNames_of_literal (literal?_become n c), assignedNames_eq, hbelow]
      generalize (n.mapChildren folded).kind = kind at hlabel
      cases kind <;> simp_all [Kind.label]

theorem assignedNames_propagate (tracked : List String) (k : Known) (n : Node) :
    (n.propagate tracked k).value.1.assignedNames = n.assignedNames :=
  congruence_assignedNames.propagate (fun _ _ _ c => by cases c <;> rfl) tracked n k

/-! ## Statements -/

mutual

/-- Replace the known variables of a statement, and say what is known behind it, where a value that
folds to a literal is known as well. -/
def lookAhead (tracked : List String) (k : Known) : Node → Node × Known
  | ⟨i, p, .assign target value⟩ =>
    let value := value.substituted k
    (⟨i, p, .assign target value⟩, k.assign tracked target value.folded.literal?)
  | ⟨i, p, .arrayAssign target index value⟩ =>
    (⟨i, p, .arrayAssign target (index.substituted k) (value.substituted k)⟩, k)
  | ⟨i, p, .returning (some value)⟩ => (⟨i, p, .returning (some (value.substituted k))⟩, k)
  | ⟨i, p, .exprStmt e⟩ => (⟨i, p, .exprStmt (e.substituted k)⟩, k)
  | ⟨i, p, .block statements⟩ =>
    let (statements, k) := lookAheadAll tracked k statements
    (⟨i, p, .block statements⟩, k)
  | ⟨i, p, .ifElse condition thenBranch none⟩ =>
    let (thenBranch, kt) := thenBranch.lookAhead tracked k
    (⟨i, p, .ifElse (condition.substituted k) thenBranch none⟩, kt.meet k)
  | ⟨i, p, .ifElse condition thenBranch (some elseBranch)⟩ =>
    let (thenBranch, kt) := thenBranch.lookAhead tracked k
    let (elseBranch, ke) := elseBranch.lookAhead tracked k
    (⟨i, p, .ifElse (condition.substituted k) thenBranch (some elseBranch)⟩, kt.meet ke)
  | ⟨i, p, .whileLoop condition body⟩ =>
    let k := k.eraseAll body.assignedNames
    (⟨i, p, .whileLoop (condition.substituted k) (body.lookAhead tracked k).1⟩, k)
  | n => (n, k)
termination_by structural n => n

/-- Replace the known variables of statements that follow each other. -/
def lookAheadAll (tracked : List String) (k : Known) : List Node → List Node × Known
  | [] => ([], k)
  | n :: ns =>
    let (n, k) := n.lookAhead tracked k
    let (ns, k) := lookAheadAll tracked k ns
    (n :: ns, k)
termination_by structural ns => ns

end

variable {tracked : List String}

theorem lookAhead_of_not_isStatement (h : n.label.isStatement = false) :
    n.lookAhead tracked k = (n, k) := by
  obtain ⟨i, p, kind⟩ := n
  cases kind with
  | assign | arrayAssign | returning | ifElse | whileLoop | block | exprStmt => cases h
  | _ => rfl

theorem isStatement_of_mem : ∀ l ∈ [Label.binary, .unary, .paren], l.isStatement = false := by
  decide

theorem folded_of_isStatement (h : n.label.isStatement = true) :
    n.folded = n.mapChildren folded :=
  folded_of_not_mem fun hmem => Bool.false_ne_true ((isStatement_of_mem _ hmem).symm.trans h)

theorem isStatement_folded (n : Node) : n.folded.label.isStatement = n.label.isStatement := by
  rcases folded_cases n with ⟨-, h⟩ | ⟨c, hc, h⟩
  · rw [h, label_mapChildren]
  · have hlabel : n.label ∈ [.binary, .unary, .paren] :=
      label_mapChildren folded n ▸ (Kind.of_foldable? hc).1
    rw [h, isStatement_of_mem _ hlabel]
    cases c <;> rfl

theorem folded_lookAheadAll_folded {ns : List Node}
    (h : ∀ n ∈ ns, ∀ k, (n.folded.lookAhead tracked k).1.folded = (n.lookAhead tracked k).1.folded ∧
      (n.folded.lookAhead tracked k).2 = (n.lookAhead tracked k).2) (k : Known) :
    (lookAheadAll tracked k (ns.map folded)).1.map folded =
        (lookAheadAll tracked k ns).1.map folded ∧
      (lookAheadAll tracked k (ns.map folded)).2 = (lookAheadAll tracked k ns).2 := by
  induction ns generalizing k with
  | nil => exact ⟨rfl, rfl⟩
  | cons n ns ih =>
    obtain ⟨hn, hns⟩ := List.forall_mem_cons.mp h
    obtain ⟨hvalue, hknown⟩ := hn k
    obtain ⟨hvalues, hknowns⟩ := ih hns (n.lookAhead tracked k).2
    simp only [List.map_cons, lookAheadAll, hknown]
    exact ⟨congrArg₂ List.cons hvalue hvalues, hknowns⟩

/-- **Folding in front of it makes no difference to looking ahead**: the same is known behind the
statement, and what is left folds to the same. -/
theorem folded_lookAhead_folded (n : Node) (k : Known) :
    (n.folded.lookAhead tracked k).1.folded = (n.lookAhead tracked k).1.folded ∧
      (n.folded.lookAhead tracked k).2 = (n.lookAhead tracked k).2 := by
  induction n using induction generalizing k with
  | step n ih =>
    cases hstatement : n.label.isStatement with
    | false =>
      rw [lookAhead_of_not_isStatement hstatement,
        lookAhead_of_not_isStatement ((isStatement_folded n).trans hstatement)]
      exact ⟨folded_folded n, rfl⟩
    | true =>
      have expr := folded_substituted_folded
      rw [folded_of_isStatement hstatement]
      obtain ⟨i, p, kind⟩ := n
      cases kind with
      | assign target value =>
        refine ⟨congrArg (fun v => Node.mk i p (.assign target v)) (expr k value), ?_⟩
        exact congrArg (fun v => k.assign tracked target (literal? v)) (expr k value)
      | arrayAssign target index value =>
        exact ⟨congrArg₂ (fun e v => Node.mk i p (.arrayAssign target e v)) (expr k index)
          (expr k value), rfl⟩
      | returning value =>
        cases value with
        | none => exact ⟨rfl, rfl⟩
        | some value =>
          exact ⟨congrArg (fun v => Node.mk i p (.returning (some v))) (expr k value), rfl⟩
      | exprStmt e => exact ⟨congrArg (fun e => Node.mk i p (.exprStmt e)) (expr k e), rfl⟩
      | ifElse c t e =>
        obtain ⟨hthen, hknown⟩ := ih t mem_second k
        cases e with
        | none =>
          refine ⟨congrArg₂ (fun c t => Node.mk i p (.ifElse c t none)) (expr k c) hthen, ?_⟩
          exact congrArg (Known.meet · k) hknown
        | some e =>
          obtain ⟨helse, hknown'⟩ := ih e mem_third k
          have hvalue := congr (congrArg₂ (fun c t e => Node.mk i p (.ifElse c t (some e)))
            (expr k c) hthen) helse
          exact ⟨hvalue, congrArg₂ Known.meet hknown hknown'⟩
      | whileLoop c body =>
        obtain ⟨hbody, -⟩ := ih body mem_second (k.eraseAll body.assignedNames)
        simp only [mapChildren, Kind.map, lookAhead, assignedNames_folded]
        refine ⟨?_, trivial⟩
        exact congrArg₂ (fun c b => Node.mk i p (.whileLoop c b)) (expr _ c) hbody
      | block statements =>
        obtain ⟨hall, hknown⟩ := folded_lookAheadAll_folded ih k
        have folded_block (ns : List Node) :
            folded ⟨i, p, .block ns⟩ = ⟨i, p, .block (ns.map folded)⟩ :=
          folded_of_isStatement rfl
        refine ⟨?_, hknown⟩
        calc folded ⟨i, p, .block (lookAheadAll tracked k (statements.map folded)).1⟩
            = ⟨i, p, .block ((lookAheadAll tracked k (statements.map folded)).1.map folded)⟩ :=
              folded_block _
          _ = ⟨i, p, .block ((lookAheadAll tracked k statements).1.map folded)⟩ :=
              congrArg (fun ns => Node.mk i p (.block ns)) hall
          _ = folded ⟨i, p, .block (lookAheadAll tracked k statements).1⟩ := (folded_block _).symm
      | _ => cases hstatement

theorem lookAheadAll_propagateAll {ns : List Node}
    (ih : ∀ n ∈ ns, ∀ k j : Known, k.Extends j →
      (n.propagate tracked j).value.1.lookAhead tracked k = n.lookAhead tracked k ∧
        (n.lookAhead tracked k).2.Extends (n.propagate tracked j).value.2) (h : k.Extends j) :
    lookAheadAll tracked k (propagateAll tracked j ns).value.1 = lookAheadAll tracked k ns ∧
      (lookAheadAll tracked k ns).2.Extends (propagateAll tracked j ns).value.2 := by
  induction ns generalizing k j with
  | nil => exact ⟨rfl, h⟩
  | cons n ns ih' =>
    obtain ⟨hn, hns⟩ := List.forall_mem_cons.mp ih
    obtain ⟨hvalue, hknown⟩ := hn k j h
    obtain ⟨hvalues, hknowns⟩ := ih' hns hknown
    refine ⟨?_, hknowns⟩
    change lookAheadAll tracked k ((n.propagate tracked j).value.1 :: _) = _
    simp only [lookAheadAll, hvalue]
    rw [hvalues]

/-- **Propagation in front of it, when less is known, makes no difference to looking ahead**, and
what is known by looking ahead is known behind. -/
theorem lookAhead_propagate (n : Node) (h : k.Extends j) :
    (n.propagate tracked j).value.1.lookAhead tracked k = n.lookAhead tracked k ∧
      (n.lookAhead tracked k).2.Extends (n.propagate tracked j).value.2 := by
  induction n using induction generalizing k j with
  | step n ih =>
    have expr {k j : Known} (h : k.Extends j) := substituted_substituted h
    obtain ⟨i, p, kind⟩ := n
    cases kind with
    | assign target value =>
      have hsub : (value.substituted j).substituted k = value.substituted k := expr h value
      refine ⟨?_, h.assign (fun c hc => ?_) tracked target⟩
      · change lookAhead tracked k ⟨i, p, .assign target (value.substituted j)⟩ = _
        simp only [lookAhead]
        rw [hsub]
      · have hc : (value.substituted j).literal? = some c := hc
        rw [← hsub, substituted_of_literal hc, folded_of_literal hc, hc]
    | arrayAssign target index value =>
      refine ⟨?_, h⟩
      change lookAhead tracked k
        ⟨i, p, .arrayAssign target (index.substituted j) (value.substituted j)⟩ = _
      simp only [lookAhead]
      rw [expr h, expr h]
    | returning value =>
      cases value with
      | none => exact ⟨rfl, h⟩
      | some value =>
        refine ⟨?_, h⟩
        change lookAhead tracked k ⟨i, p, .returning (some (value.substituted j))⟩ = _
        simp only [lookAhead]
        rw [expr h]
    | exprStmt e =>
      refine ⟨?_, h⟩
      change lookAhead tracked k ⟨i, p, .exprStmt (e.substituted j)⟩ = _
      simp only [lookAhead]
      rw [expr h]
    | ifElse c t e =>
      obtain ⟨hthen, hknown⟩ := ih t mem_second h
      cases e with
      | none =>
        refine ⟨?_, hknown.meet h⟩
        change lookAhead tracked k ⟨i, p, .ifElse (c.substituted j) _ none⟩ = _
        simp only [lookAhead]
        rw [expr h, hthen]
      | some e =>
        obtain ⟨helse, hknown'⟩ := ih e mem_third h
        refine ⟨?_, hknown.meet hknown'⟩
        change lookAhead tracked k ⟨i, p, .ifElse (c.substituted j) _ (some _)⟩ = _
        simp only [lookAhead]
        rw [expr h, hthen, helse]
    | whileLoop c body =>
      have hloop := h.eraseAll body.assignedNames
      obtain ⟨hbody, -⟩ := ih body mem_second hloop
      refine ⟨?_, hloop⟩
      change lookAhead tracked k ⟨i, p, .whileLoop (c.substituted _) _⟩ = _
      simp only [lookAhead]
      rw [assignedNames_propagate, expr hloop, hbody]
    | block statements =>
      obtain ⟨hvalue, hknown⟩ := lookAheadAll_propagateAll (fun n hn k j h => ih n hn h) h
      refine ⟨?_, hknown⟩
      exact congrArg (fun r : List Node × Known => (Node.mk i p (.block r.1), r.2)) hvalue
    | _ => exact ⟨rfl, h⟩

theorem lookAheadAll_of_fixed {ns : List Node}
    (ih : ∀ n ∈ ns, ∀ k, (n.propagate tracked k).value.1 = n → n.folded = n →
      n.lookAhead tracked k = (n.propagate tracked k).value)
    (hpropagate : (propagateAll tracked k ns).value.1 = ns) (hfolded : ∀ n ∈ ns, n.folded = n) :
    lookAheadAll tracked k ns = (propagateAll tracked k ns).value := by
  induction ns generalizing k with
  | nil => rfl
  | cons n ns ih' =>
    obtain ⟨hn, hns⟩ := List.forall_mem_cons.mp ih
    obtain ⟨hf, hfs⟩ := List.forall_mem_cons.mp hfolded
    obtain ⟨hp, hps⟩ := List.cons_eq_cons.mp hpropagate
    simp only [lookAheadAll, hn k hp hf, ih' hns hps hfs]
    rfl

/-- A statement that both passes leave alone is propagated through by looking ahead as it is by the
pass. -/
theorem lookAhead_of_fixed (n : Node) (hpropagate : (n.propagate tracked k).value.1 = n)
    (hfolded : n.folded = n) : n.lookAhead tracked k = (n.propagate tracked k).value := by
  induction n using induction generalizing k with
  | step n ih =>
    have folded_child {c : Node} (hstatement : n.label.isStatement = true) (hc : c ∈ n.children) :
        c.folded = c := by
      have hkind := congrArg children hfolded
      rw [folded_of_isStatement hstatement, children_mapChildren] at hkind
      exact map_eq_self_iff.mp hkind c hc
    obtain ⟨i, p, kind⟩ := n
    cases kind with
    | assign target value =>
      have hsub : value.substituted k = value := by
        injection hpropagate with _ _ hkind
        injection hkind
      have hknown : (value.substituted k).folded = value.substituted k := by
        rw [hsub]
        exact folded_child rfl List.mem_cons_self
      simp only [lookAhead, hknown]
      rfl
    | returning value => cases value <;> rfl
    | ifElse c t e =>
      cases e with
      | none =>
        injection hpropagate with _ _ hkind
        injection hkind with _ hthen
        simp only [lookAhead, ih t mem_second hthen (folded_child rfl mem_second)]
        rfl
      | some e =>
        have third : e ∈ [c, t, e] := mem_third
        injection hpropagate with _ _ hkind
        injection hkind with _ hthen helse
        injection helse with helse
        simp only [lookAhead, ih t mem_second hthen (folded_child rfl mem_second),
          ih e third helse (folded_child rfl third)]
        rfl
    | whileLoop c body =>
      injection hpropagate with _ _ hkind
      injection hkind with _ hbody
      simp only [lookAhead, ih body mem_second hbody (folded_child rfl mem_second)]
      rfl
    | block statements =>
      injection hpropagate with _ _ hkind
      injection hkind with hstatements
      have hall := lookAheadAll_of_fixed (fun n hn k => ih n hn) hstatements fun n hn =>
        folded_child rfl hn
      exact congrArg (fun r : List Node × Known => (Node.mk i p (.block r.1), r.2)) hall
    | _ => rfl

end Node

end MiniJava
