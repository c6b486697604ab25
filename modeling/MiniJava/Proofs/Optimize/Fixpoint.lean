import MiniJava.Proofs.Graph.Shows

/-!
# The optimizer reaches its fixpoint

Each replacement makes a literal of an entry of the table that was none, and nothing else changes in
the table. `Spends` says so of a part of a pass: the replacements that it counts are the entries
other than literals that it takes away, and if it counts none the table is as before.

So the two passes of the optimizer cannot go on for more rounds than there are such entries, and the
round in which nothing is counted ends with a table that both leave alone. The main result is
`Graph.optimize_reaches_fixpoint`, for every graph and in particular for that of a tree that has
been read.
-/

namespace MiniJava

/-! ## Alternating passes -/

/-- **Passes that count what they take from a measure, and change nothing when they count nothing,
reach a common fixpoint** within one round more than the measure says. -/
theorem exists_alternate_fixpoint {α : Type} {propagate fold : α → Counted α} {μ : α → Nat}
    (hpropagate : ∀ a, (propagate a).count + μ (propagate a).value = μ a)
    (hfold : ∀ a, (fold a).count + μ (fold a).value = μ a)
    (hpropagate₀ : ∀ a, (propagate a).count = 0 → (propagate a).value = a)
    (hfold₀ : ∀ a, (fold a).count = 0 → (fold a).value = a)
    (left : Nat) (stats : OptimizationStats) (a : α) (hleft : μ a < left) :
    ∃ b stats', alternate propagate fold left stats a = .ok (b, stats') ∧
      stats'.propagated + stats'.folded + μ b = stats.propagated + stats.folded + μ a ∧
      stats'.rounds + μ b ≤ stats.rounds + μ a + 1 ∧ propagate b = pure b ∧ fold b = pure b := by
  induction left generalizing a stats with
  | zero => exact absurd hleft (Nat.not_lt_zero _)
  | succ left ih =>
    have hp := hpropagate a
    have hf := hfold (propagate a).value
    unfold alternate
    by_cases hchanged : ((propagate a).isChanged || (fold (propagate a).value).isChanged) = true
    · simp only [if_pos hchanged]
      simp only [Bool.or_eq_true, Counted.isChanged_iff] at hchanged
      have hleft' : μ (fold (propagate a).value).value < left := by omega
      obtain ⟨b, stats', halternate, hcounts, hrounds, hfix⟩ := ih ⟨stats.rounds + 1,
        stats.propagated + (propagate a).count, stats.folded + (fold (propagate a).value).count⟩
        _ hleft'
      dsimp only at hcounts hrounds
      exact ⟨b, stats', halternate, by omega, by omega, hfix⟩
    · simp only [if_neg hchanged]
      simp only [Bool.or_eq_true, Counted.isChanged_iff, not_or, Nat.not_lt,
        Nat.le_zero] at hchanged
      obtain ⟨hp₀, hf₀⟩ := hchanged
      have hpa := hpropagate₀ a hp₀
      have hfa := hfold₀ _ hf₀
      rw [hpa] at hf₀ hfa ⊢
      refine ⟨_, _, rfl, ?_, ?_, ?_⟩
      · rw [hfa, hp₀, hf₀]
        rfl
      · rw [hfa]
        exact (Nat.add_right_comm _ _ _).le
      · rw [hfa]
        exact ⟨Counted.eq_pure hpa hp₀, Counted.eq_pure hfa hf₀⟩

/-- Where both passes have nothing to do, one round finds it out. -/
theorem alternate_of_fixpoint {α : Type} {propagate fold : α → Counted α} {a : α}
    (hpropagate : propagate a = pure a) (hfold : fold a = pure a) (left : Nat)
    (stats : OptimizationStats) :
    alternate propagate fold (left + 1) stats a =
      .ok (a, { stats with rounds := stats.rounds + 1 }) := by
  unfold alternate
  rw [hpropagate]
  simp only [Counted.value_pure, hfold]
  rfl

namespace Graph

/-! ## Spending -/

/-- The entries of the table that are no literals, whether they are seen from the root or not. -/
def nonLiteralSlots (g : Graph) : Nat := g.nodes.countP fun e => !e.kind.isLiteral

theorem countP_modify {α : Type} {p : α → Bool} {f : α → α} {as : List α} {i : Nat} {a : α}
    (hi : as[i]? = some a) (ha : p a = true) (hfa : p (f a) = false) :
    (as.modify i f).countP p + 1 = as.countP p := by
  induction as generalizing i with
  | nil => cases hi
  | cons b as ih =>
    cases i with
    | zero =>
      cases hi
      rw [List.modify_zero_cons, List.countP_cons_of_neg (by rw [hfa]; exact Bool.false_ne_true),
        List.countP_cons_of_pos ha]
    | succ i =>
      have ih := ih hi
      rw [List.modify_succ_cons, List.countP_cons, List.countP_cons]
      omega

/-- What an edit did: each replacement took one entry that is no literal, and without any the table
is as before. -/
structure Spent {α : Type} (g : Graph) (r : Counted (α × Graph)) : Prop where
  count : r.count + r.value.2.nonLiteralSlots = g.nonLiteralSlots
  unchanged : r.count = 0 → r.value.2 = g
  size : r.value.2.nodes.size = g.nodes.size

/-- The edit does so on every table of this size. -/
def Spends {α : Type} (size : Nat) (x : Edit α) : Prop :=
  ∀ g : Graph, g.nodes.size = size → Spent g (x.run g)

variable {α β : Type} {size : Nat} {x : Edit α} {f : α → Edit β} {g : Graph}

namespace Spends

protected theorem pure (a : α) : Spends size (pure a) :=
  fun _ _ => ⟨Nat.zero_add _, fun _ => rfl, rfl⟩

protected theorem bind (hx : Spends size x) (hf : ∀ a, Spends size (f a)) :
    Spends size (x >>= f) := by
  intro g hg
  obtain ⟨hcount, hunchanged, hsize⟩ := hx g hg
  obtain ⟨hcount', hunchanged', hsize'⟩ := hf (x.run g).value.1 _ (hsize.trans hg)
  rw [StateT.run_bind]
  refine ⟨?_, fun h => ?_, hsize'.trans hsize⟩
  · rw [← hcount, ← hcount', ← Nat.add_assoc]
    rfl
  · have h : (x.run g).count + ((f (x.run g).value.1).run (x.run g).value.2).count = 0 := h
    exact (hunchanged' (by omega)).trans (hunchanged (by omega))

/-- What is done may depend on the table. -/
theorem get {f : Graph → Edit α} (hf : ∀ g, g.nodes.size = size → Spent g ((f g).run g)) :
    Spends size (get >>= f) := by
  intro g hg
  rw [StateT.run_bind, StateT.run_get, pure_bind]
  exact hf g hg

theorem forM {F : Node → Edit Unit} {ns : List Node} (h : ∀ n ∈ ns, Spends size (F n)) :
    Spends size (ns.forM F) := by
  induction ns with
  | nil => exact .pure ()
  | cons n ns ih =>
    obtain ⟨hn, hns⟩ := List.forall_mem_cons.mp h
    exact hn.bind fun _ => ih hns

end Spends

/-- Making a literal of an entry that is none is one replacement. -/
theorem spent_settle {id : Nat} (hid : id < g.nodes.size) (h : (g.kind id).isLiteral = false)
    (c : Constant) : Spent g ((settle id c).run g) := by
  have hnodes : (g.replace id c.toKind).nodes =
      g.nodes.modify id ({ · with kind := c.toKind }) := by
    cases c <;> rfl
  refine ⟨?_, fun h => absurd h Nat.one_ne_zero, ?_⟩
  · change 1 + (g.replace id c.toKind).nodes.countP _ = g.nodes.countP _
    rw [hnodes, ← Array.countP_toList, ← Array.countP_toList, Array.toList_modify, Nat.add_comm]
    unfold Graph.kind at h
    rw [Array.getElem?_eq_getElem hid] at h
    refine countP_modify (a := g.nodes[id]) ?_ ?_ ?_
    · rw [Array.getElem?_toList, Array.getElem?_eq_getElem hid]
    · exact congrArg not h
    · cases c <;> rfl
  · change (g.replace id c.toKind).nodes.size = _
    rw [hnodes, Array.size_modify]

/-! ## Folding -/

theorem lt_size_of_kind {id : Nat} (h : (g.kind id).label ≠ .this) : id < g.nodes.size := by
  by_contra hid
  unfold Graph.kind at h
  rw [Array.getElem?_eq_none (Nat.not_lt.mp hid)] at h
  exact h rfl

theorem spends_foldAt (id : Nat) : Spends size (foldAt id) := by
  refine .get fun g _ => ?_
  cases hc : (g.kind id).foldable? g.literal? with
  | none => exact Spends.pure () g rfl
  | some c =>
    have hlabel : (g.kind id).label ≠ .this ∧ (g.kind id).isLiteral = false := by
      generalize g.kind id = k at hc
      cases k with
      | binary | unary | paren => exact ⟨nofun, rfl⟩
      | _ => cases hc
    exact spent_settle (lt_size_of_kind hlabel.1) hlabel.2 c

theorem spends_foldFrom (n : Node) : Spends size (foldFrom n) := by
  induction n using Node.induction with
  | step n ih =>
    rw [foldFrom_eq]
    refine .get fun g hg => ?_
    by_cases hliteral : (g.literal? n.id).isNone = true
    · rw [if_pos hliteral]
      exact Spends.bind (.forM ih) (fun _ => spends_foldAt n.id) g hg
    · rw [if_neg hliteral]
      exact Spends.pure () g hg

/-- A pass of folding counts what it takes away. -/
theorem spent_foldConstants (g : Graph) :
    g.foldConstants.count + g.foldConstants.value.nonLiteralSlots = g.nonLiteralSlots ∧
      (g.foldConstants.count = 0 → g.foldConstants.value = g) := by
  obtain ⟨hcount, hunchanged, -⟩ := spends_foldFrom g.toTree g rfl
  exact ⟨hcount, hunchanged⟩

/-! ## Propagation -/

/-- The names of variables in a tree have numbers below a size. -/
def NamesBelow (size : Nat) (n : Node) : Prop :=
  ∀ m ∈ n.preorder, m.label = .varRef → m.id < size

theorem NamesBelow.child {n c : Node} (h : NamesBelow size n) (hc : c ∈ n.children) :
    NamesBelow size c :=
  fun m hm => h m (Node.mem_preorder_of_mem_children hc hm)

theorem spends_substituteFrom (k : Known) {n : Node} (h : NamesBelow size n) :
    Spends size (substituteFrom k n) := by
  induction n using Node.induction with
  | step n ih =>
    by_cases hname : n.label = .varRef
    · have hid := h n n.mem_preorder_self hname
      obtain ⟨i, p, kind⟩ := n
      cases kind with
      | varRef name =>
        rw [substituteFrom_varRef]
        refine .get fun g hg => ?_
        by_cases hliteral : (g.literal? i).isNone = true
        · rw [if_pos hliteral]
          cases k.get? name with
          | none => exact Spends.pure () g hg
          | some c =>
            refine spent_settle (hg ▸ hid) ?_ c
            unfold Graph.literal? at hliteral
            generalize g.kind i = kind at hliteral
            cases kind with
            | intLit | boolLit => cases hliteral
            | _ => rfl
        · rw [if_neg hliteral]
          exact Spends.pure () g hg
      | _ => cases hname
    · cases hcompound : n.label.isCompound with
      | false =>
        rw [substituteFrom_of_not_compound k hcompound hname]
        exact .pure ()
      | true =>
        rw [substituteFrom_of_compound k hcompound]
        exact .forM fun c hc => ih c hc (h.child hc)

theorem spends_propagateThrough {tracked : List String} {ns : List Node}
    (h : ∀ n ∈ ns, ∀ k, Spends size (propagateFrom tracked k n)) (k : Known) :
    Spends size (propagateThrough tracked k ns) := by
  induction ns generalizing k with
  | nil => exact .pure k
  | cons n ns ih =>
    obtain ⟨hn, hns⟩ := List.forall_mem_cons.mp h
    exact (hn k).bind fun k => ih hns k

theorem spends_propagateFrom (tracked : List String) {n : Node} (h : NamesBelow size n)
    (k : Known) : Spends size (propagateFrom tracked k n) := by
  induction n using Node.induction generalizing k with
  | step n ih =>
    have ih {c : Node} (hc : c ∈ n.children) (k : Known) := ih c hc (h.child hc) k
    have expr {c : Node} (hc : c ∈ n.children) (k : Known) :=
      spends_substituteFrom k (h.child hc)
    obtain ⟨i, p, kind⟩ := n
    have first {c : Node} {cs : List Node} : c ∈ c :: cs := List.mem_cons_self
    cases kind with
    | assign target value =>
      refine (expr first k).bind fun _ => .get fun g hg => ?_
      exact Spends.pure _ g hg
    | arrayAssign target index value =>
      exact (expr first k).bind fun _ => (expr mem_second k).bind fun _ => .pure k
    | returning value =>
      cases value with
      | none => exact .pure k
      | some value => exact (expr first k).bind fun _ => .pure k
    | exprStmt e => exact (expr first k).bind fun _ => .pure k
    | ifElse c t e =>
      cases e with
      | none => exact (expr first k).bind fun _ => (ih mem_second k).bind fun _ => .pure _
      | some e =>
        exact (expr first k).bind fun _ => (ih mem_second k).bind fun _ =>
          (ih mem_third k).bind fun _ => .pure _
    | whileLoop c body =>
      exact (expr first _).bind fun _ => (ih mem_second _).bind fun _ => .pure _
    | block statements => exact spends_propagateThrough (fun n hn k => ih hn k) k
    | _ => exact .pure k

theorem spends_propagateIn (t : SymbolTable) {n : Node} (h : NamesBelow size n) :
    Spends size (propagateIn t n) := by
  obtain ⟨i, p, kind⟩ := n
  cases kind with
  | methodDecl head params locals body =>
    refine (spends_propagateThrough (fun n hn k => ?_) {}).bind fun _ => .pure ()
    exact spends_propagateFrom _ (h.child (List.mem_append_right _ hn)) k
  | _ => exact .pure ()

/-- What is unfolded from a table has its numbers in the table, apart from leaves. -/
theorem namesBelow_unfoldTo (g : Graph) (depth id : Nat) :
    NamesBelow g.nodes.size (g.unfoldTo depth id) := by
  induction depth generalizing id with
  | zero =>
    intro m hm hlabel
    obtain rfl := List.mem_singleton.mp hm
    cases hlabel
  | succ depth ih =>
    intro m hm hlabel
    rcases Node.mem_preorder.mp hm with rfl | ⟨c, hc, hm⟩
    · have hlabel : ((g.kind id).map (g.unfoldTo depth)).label = .varRef := hlabel
      rw [Kind.label_map] at hlabel
      exact lt_size_of_kind fun hthis : (g.kind id).label = .this => nomatch hthis ▸ hlabel
    · have hc : c ∈ ((g.kind id).map (g.unfoldTo depth)).children := hc
      rw [Kind.children_map] at hc
      obtain ⟨id', -, rfl⟩ := List.mem_map.mp hc
      exact ih id' m hm hlabel

/-- A pass of propagation counts what it takes away. -/
theorem spent_propagateConstants (t : SymbolTable) (g : Graph) :
    (g.propagateConstants t).count + (g.propagateConstants t).value.nonLiteralSlots =
        g.nonLiteralSlots ∧
      ((g.propagateConstants t).count = 0 → (g.propagateConstants t).value = g) := by
  have hmethods : Spends g.nodes.size (g.toTree.methods.forM (propagateIn t)) := by
    refine .forM fun m hm => spends_propagateIn t fun x hx => ?_
    refine namesBelow_unfoldTo g g.nodes.size g.root x ?_
    exact (preorder_infix_of_mem_preorder (Node.mem_preorder_of_mem_methods hm).1).subset hx
  obtain ⟨hcount, hunchanged, -⟩ := hmethods g rfl
  exact ⟨hcount, hunchanged⟩

/-! ## The optimizer -/

/-- **On every graph the optimizer reaches a fixpoint of both passes** within its number of rounds,
and it counts the entries that became literals. -/
theorem exists_optimize (t : SymbolTable) (g : Graph) :
    ∃ g' stats, g.optimize t = .ok (g', stats) ∧
      stats.propagated + stats.folded + g'.nonLiteralSlots = g.nonLiteralSlots ∧
      stats.rounds ≤ stats.propagated + stats.folded + 1 ∧
      g'.propagateConstants t = pure g' ∧ g'.foldConstants = pure g' := by
  have hslots : g.nonLiteralSlots < g.nodes.size + 1 :=
    Nat.lt_succ_of_le Array.countP_le_size
  obtain ⟨g', stats, hoptimize, hcounts, hrounds, hfix⟩ := exists_alternate_fixpoint
    (μ := nonLiteralSlots) (fun g => (spent_propagateConstants t g).1)
    (fun g => (spent_foldConstants g).1) (fun g => (spent_propagateConstants t g).2)
    (fun g => (spent_foldConstants g).2) (g.nodes.size + 1) {} g hslots
  simp only [Nat.zero_add] at hcounts hrounds
  exact ⟨g', stats, hoptimize, hcounts, by omega, hfix⟩

/-- **The optimizer always reaches its fixpoint.** For a tree that has been read and any symbol
table, in the graph of the tree as in the tree itself: the replacements are as many as the entries
that became literals, the rounds are at most one more, no pass finds anything to do behind them, and
to optimize again takes one round in which nothing changes. -/
theorem optimize_reaches_fixpoint {raw : RawNode} {root : Node} (h : Node.ofRaw? raw = .ok root)
    (t : SymbolTable) :
    ∃ g stats, (ofTree root).optimize t = .ok (g, stats) ∧
      MiniJava.optimize t root = .ok (g.toTree, stats) ∧
      stats.propagated + stats.folded + g.nonLiteralSlots = (ofTree root).nonLiteralSlots ∧
      stats.rounds ≤ stats.propagated + stats.folded + 1 ∧
      g.propagateConstants t = pure g ∧ g.foldConstants = pure g ∧
      ∃ again : OptimizationStats, g.optimize t = .ok (g, again) ∧ again.rounds = 1 ∧
        again.isChanged = false := by
  obtain ⟨g, stats, hoptimize, hcounts, hrounds, hpropagate, hfold⟩ :=
    exists_optimize t (ofTree root)
  obtain ⟨root', hoptimize', hg⟩ := shows_of_optimize t h hoptimize
  refine ⟨g, stats, hoptimize, hg.toTree.symm ▸ hoptimize', hcounts, hrounds, hpropagate, hfold,
    ⟨1, 0, 0⟩, ?_, rfl, rfl⟩
  exact alternate_of_fixpoint hpropagate hfold g.nodes.size {}

/-- A program in which one constant is propagated and one sum is folded, in two rounds. -/
theorem optimize_reaches_fixpoint_sum : ∃ raw root table, Node.ofRaw? raw = .ok root ∧
    SymbolTable.ofTree? root = .ok table ∧
    ((ofTree root).optimize table).toOption.map Prod.snd = some ⟨2, 1, 1⟩ ∧
    ∃ g stats, (ofTree root).optimize table = .ok (g, stats) ∧
      MiniJava.optimize table root = .ok (g.toTree, stats) ∧
      stats.propagated + stats.folded + g.nonLiteralSlots = (ofTree root).nonLiteralSlots ∧
      stats.rounds ≤ stats.propagated + stats.folded + 1 ∧
      g.propagateConstants table = pure g ∧ g.foldConstants = pure g ∧
      ∃ again : OptimizationStats, g.optimize table = .ok (g, again) ∧ again.rounds = 1 ∧
        again.isChanged = false := by
  obtain ⟨root, table, h, hstats⟩ := Accepted.exists_of_any
    "class A{int f(){int a;a=1;return a+1;}}"
    (fun root table => ((ofTree root).optimize table).toOption.map Prod.snd = some ⟨2, 1, 1⟩)
    (by decide +kernel)
  obtain ⟨raw, -, hread⟩ := h.tree
  exact ⟨raw, root, table, hread, h.declared, of_decide_eq_true hstats,
    optimize_reaches_fixpoint hread table⟩

end Graph

end MiniJava
