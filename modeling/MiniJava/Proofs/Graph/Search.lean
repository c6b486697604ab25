import Mathlib.Tactic.SplitIfs
import MiniJava.Proofs.Accepted
import MiniJava.Proofs.Graph.Typing

/-!
# The search for the type of an expression comes to an end

`Graph.typeOf?` gives up after as many nested steps as the graph has nodes, and then counts what it
was looking for as unknown. Here is the same search with an answer of its own when there are not
steps enough: `Graph.search` follows an expression down to the part that decides its type, and
`Graph.searchDemand` goes up from a call to its place and down into a neighbour, in which other
calls may go up in turn. A search that has not come to an end within the steps has the result
`none`. Any other result is that of a search without a limit: more steps do not change it
(`search_mono`), and in every graph it is the type that is found in as many steps
(`typeWithin?_of_search`).

In the graph of a tree the search ends within as many nested steps as there are nodes
(`search_eq_typeOf?`). It leaves a part of the tree only for the parent, and enters from there only
a part that it did not come from; a call among the neighbours is passed over. So the induction is on
the tree, and the search for what is demanded of a call is known to end before the call is entered
(`Stands.Searched`).
-/

namespace MiniJava

namespace Graph

/-! ## Searching -/

section

variable (g : Graph)

/-- The nearest ancestor of a node that is no parenthesis, and through which of its children it is
reached. -/
def climb : (steps : Nat) → (id : Nat) → Option (Nat × Option Nat)
  | 0, _ => none
  | steps + 1, id =>
    match g.parent? id with
    | none => some (id, none)
    | some parent =>
      if (g.kind parent).label = .paren then climb steps parent else some (id, some parent)

/-- The number is that of a call, perhaps in parentheses. -/
def opensCall : (steps : Nat) → (id : Nat) → Option Bool
  | 0, _ => none
  | steps + 1, id =>
    match g.kind id with
    | .call _ _ _ => some true
    | .paren inner => opensCall steps inner
    | _ => some false

variable (sc : Scope)

section Demand

variable (search : Nat → Option (Option Ty))

/-- The type of the first of several expressions that is no call, `int` if there is none or its type
is not known. -/
def searchFirst : List Nat → Option Ty
  | [] => some .int
  | id :: ids => do
    if ← g.opensCall g.nodes.size id then searchFirst ids
    else return (← search id).getD .int

/-- What the place of a call demands of it. -/
def searchDemand (id : Nat) : Option Ty := do
  match ← g.climb g.nodes.size id with
  | (_, none) => return .int
  | (child, some parent) =>
    match g.kind parent with
    | .binary op left right =>
      if op.isArithmetic || op.isRelational then return .int
      else if op.isLogical then return .boolean
      else g.searchFirst search [if left = child then right else left]
    | .call receiver method arguments =>
      if receiver = child then return .object
      else if (← search receiver) = some sc.table.classType then
        return sc.parameterDemand method ((arguments.idxOf? child).getD 0)
      else return .int
    | .arrayLit elements => g.searchFirst search (elements.filter (· ≠ child))
    -- No other kind looks at a neighbour.
    | kind => return g.childDemand sc (fun _ => none) child kind

end Demand

/-- The type of the expression with a number. -/
def search : (steps : Nat) → (id : Nat) → Option (Option Ty)
  | 0, _ => none
  | steps + 1, id =>
    match g.kind id with
    | .unary _ inner | .paren inner => search steps inner
    | .arrayAccess array _ => do return (← search steps array).map Ty.element
    | .arrayLit (e :: _) => do return (← search steps e).map Ty.array
    | .call receiver method _ => do
      match sc.knownReturn? (← search steps receiver) method with
      | some t => return some t
      | none => return some (← g.searchDemand sc (search steps) id)
    | kind => return sc.ownType? kind

end

variable {g : Graph} {sc : Scope}

/-! ## Results -/

/-- Where `climb` ends, `place` has not been stopped by its limit. -/
theorem place_of_climb {steps id : Nat} {p : Nat × Option Nat} (h : g.climb steps id = some p) :
    g.place steps id = p := by
  induction steps generalizing id with
  | zero => cases h
  | succ steps ih =>
    rw [climb] at h
    rw [place]
    generalize g.parent? id = parent at h ⊢
    cases parent with
    | none => exact Option.some.inj h
    | some parent =>
      dsimp only at h ⊢
      split_ifs at h ⊢
      · exact ih h
      · exact Option.some.inj h

theorem isCallWithin_of_opensCall {steps id : Nat} {b : Bool} (h : g.opensCall steps id = some b) :
    g.isCallWithin steps id = b := by
  induction steps generalizing id with
  | zero => cases h
  | succ steps ih =>
    rw [opensCall] at h
    rw [isCallWithin]
    generalize g.kind id = kind at h ⊢
    cases kind with
    | paren inner => exact ih h
    | _ => exact Option.some.inj h

section

variable {search search' : Nat → Option (Option Ty)} {id : Nat} {ids : List Nat} {d : Ty}

section

variable (hsearch : ∀ id t, search id = some t → search' id = some t)

include hsearch

theorem searchFirst_mono (h : g.searchFirst search ids = some d) :
    g.searchFirst search' ids = some d := by
  induction ids with
  | nil => exact h
  | cons id ids ih =>
    obtain ⟨isCall, hcall, h⟩ := Option.bind_eq_some_iff.mp h
    refine Option.bind_eq_some_iff.mpr ⟨isCall, hcall, ?_⟩
    cases isCall with
    | true => exact ih h
    | false =>
      obtain ⟨t, ht, h⟩ := Option.bind_eq_some_iff.mp h
      exact Option.bind_eq_some_iff.mpr ⟨t, hsearch id t ht, h⟩

theorem searchDemand_mono (h : g.searchDemand sc search id = some d) :
    g.searchDemand sc search' id = some d := by
  obtain ⟨⟨child, parent⟩, hclimb, h⟩ := Option.bind_eq_some_iff.mp h
  refine Option.bind_eq_some_iff.mpr ⟨_, hclimb, ?_⟩
  cases parent with
  | none => exact h
  | some parent =>
    dsimp only at h ⊢
    generalize g.kind parent = kind at h ⊢
    cases kind with
    | binary op left right =>
      dsimp only at h ⊢
      split_ifs at h ⊢
      · exact h
      · exact h
      · exact searchFirst_mono hsearch h
      · exact searchFirst_mono hsearch h
    | call receiver method arguments =>
      dsimp only at h ⊢
      split_ifs at h ⊢
      · exact h
      · obtain ⟨t, ht, h⟩ := Option.bind_eq_some_iff.mp h
        exact Option.bind_eq_some_iff.mpr ⟨t, hsearch receiver t ht, h⟩
    | arrayLit elements => exact searchFirst_mono hsearch h
    | _ => exact h

end

section

variable {typeOf? : Nat → Option Ty} (hsearch : ∀ id t, search id = some t → typeOf? id = t)

include hsearch

theorem firstKnown_of_searchFirst (h : g.searchFirst search ids = some d) :
    g.firstKnown typeOf? ids = d := by
  induction ids with
  | nil => exact Option.some.inj h
  | cons id ids ih =>
    obtain ⟨isCall, hcall, h⟩ := Option.bind_eq_some_iff.mp h
    have hcall : g.isCall id = isCall := isCallWithin_of_opensCall hcall
    unfold firstKnown at ih ⊢
    rw [List.find?_cons, hcall]
    cases isCall with
    | true => exact ih h
    | false =>
      obtain ⟨t, ht, h⟩ := Option.bind_eq_some_iff.mp h
      obtain rfl := hsearch id t ht
      exact Option.some.inj h

theorem demandOf_of_searchDemand (h : g.searchDemand sc search id = some d) :
    g.demandOf sc typeOf? id = d := by
  obtain ⟨⟨child, parent⟩, hclimb, h⟩ := Option.bind_eq_some_iff.mp h
  rw [demandOf, place_of_climb hclimb]
  cases parent with
  | none => exact Option.some.inj h
  | some parent =>
    dsimp only at h ⊢
    generalize g.kind parent = kind at h ⊢
    cases kind with
    | binary op left right =>
      dsimp only [childDemand] at h ⊢
      split_ifs at h ⊢
      · exact Option.some.inj h
      · exact Option.some.inj h
      · exact firstKnown_of_searchFirst hsearch h
      · exact firstKnown_of_searchFirst hsearch h
    | call receiver method arguments =>
      dsimp only [childDemand] at h ⊢
      by_cases hr : receiver = child
      · rw [if_pos hr] at h ⊢
        exact Option.some.inj h
      · rw [if_neg hr] at h ⊢
        obtain ⟨t, ht, h⟩ := Option.bind_eq_some_iff.mp h
        rw [hsearch receiver t ht]
        split_ifs at h ⊢ <;> exact Option.some.inj h
    | arrayLit elements => exact firstKnown_of_searchFirst hsearch h
    | _ => exact Option.some.inj h

end

end

variable {id : Nat} {t : Option Ty}

/-- The result of a search does not change if there are more steps. -/
theorem search_mono {steps steps' : Nat} (hle : steps ≤ steps')
    (h : g.search sc steps id = some t) : g.search sc steps' id = some t := by
  induction steps generalizing steps' id t with
  | zero => cases h
  | succ steps ih =>
    cases steps' with
    | zero => exact absurd hle (Nat.not_succ_le_zero steps)
    | succ steps' =>
      have ih {id t} (h : g.search sc steps id = some t) : g.search sc steps' id = some t :=
        ih (Nat.le_of_succ_le_succ hle) h
      rw [search] at h ⊢
      generalize g.kind id = kind at h ⊢
      cases kind with
      | unary _ inner | paren inner => exact ih h
      | arrayAccess array index =>
        obtain ⟨t, ht, h⟩ := Option.bind_eq_some_iff.mp h
        exact Option.bind_eq_some_iff.mpr ⟨t, ih ht, h⟩
      | arrayLit elements =>
        cases elements with
        | nil => exact h
        | cons e es =>
          obtain ⟨t, ht, h⟩ := Option.bind_eq_some_iff.mp h
          exact Option.bind_eq_some_iff.mpr ⟨t, ih ht, h⟩
      | call receiver method arguments =>
        obtain ⟨t, ht, h⟩ := Option.bind_eq_some_iff.mp h
        refine Option.bind_eq_some_iff.mpr ⟨t, ih ht, ?_⟩
        generalize sc.knownReturn? t method = known at h ⊢
        cases known with
        | some r => exact h
        | none =>
          obtain ⟨d, hd, h⟩ := Option.bind_eq_some_iff.mp h
          exact Option.bind_eq_some_iff.mpr ⟨d, searchDemand_mono (fun _ _ => ih) hd, h⟩
      | _ => exact h

/-- The result of a search in a graph is the type that is found in as many steps. -/
theorem typeWithin?_of_search {steps : Nat} (h : g.search sc steps id = some t) :
    g.typeWithin? sc steps id = t := by
  induction steps generalizing id t with
  | zero => cases h
  | succ steps ih =>
    rw [search] at h
    rw [typeWithin?]
    generalize g.kind id = kind at h ⊢
    cases kind with
    | unary _ inner | paren inner => exact ih h
    | arrayAccess array index =>
      obtain ⟨t, ht, h⟩ := Option.bind_eq_some_iff.mp h
      obtain rfl := ih ht
      exact Option.some.inj h
    | arrayLit elements =>
      cases elements with
      | nil => exact Option.some.inj h
      | cons e es =>
        obtain ⟨t, ht, h⟩ := Option.bind_eq_some_iff.mp h
        obtain rfl := ih ht
        exact Option.some.inj h
    | call receiver method arguments =>
      obtain ⟨t, ht, h⟩ := Option.bind_eq_some_iff.mp h
      obtain rfl := ih ht
      dsimp only at h ⊢
      generalize sc.knownReturn? _ method = known at h ⊢
      cases known with
      | some r => exact Option.some.inj h
      | none =>
        obtain ⟨d, hd, h⟩ := Option.bind_eq_some_iff.mp h
        obtain rfl := demandOf_of_searchDemand (fun _ _ => ih) hd
        exact Option.some.inj h
    | _ => exact Option.some.inj h

variable {n c : Node} {parent : Option Nat}

namespace Stands

/-! ## Places in a tree -/

/-- Going up through parentheses takes less steps than there are nodes below. -/
theorem climb_unwrap (h : g.Stands n parent) :
    ∃ j < n.size, ∀ steps, g.climb (steps + j) n.unwrap.id = g.climb steps n.id := by
  induction n using Node.induction generalizing parent with
  | step n ih =>
    obtain ⟨i, p, k⟩ := n
    cases k with
    | paren inner =>
      have hinner := h.child (c := inner) List.mem_cons_self
      obtain ⟨j, hj, hclimb⟩ := ih inner List.mem_cons_self hinner
      have hlt := size_lt_of_mem_children (n := ⟨i, p, .paren inner⟩) (c := inner)
        List.mem_cons_self
      refine ⟨j + 1, by omega, fun steps => ?_⟩
      have hup : g.climb (steps + 1) inner.id = g.climb steps i := by
        have hkind : g.kind i = .paren inner.id := h.has.kind
        simp only [climb, hinner.parent?_eq, hkind, Kind.label, if_true]
      rw [Nat.add_comm j 1, ← Nat.add_assoc, ← hup]
      exact hclimb (steps + 1)
    | _ => exact ⟨0, size_pos _, fun _ => rfl⟩

/-- The table is large enough to go up through parentheses and one step further. -/
theorem exists_climb_eq (h : g.Stands n parent) :
    ∃ steps, g.climb g.nodes.size n.unwrap.id = g.climb (steps + 1) n.id := by
  obtain ⟨j, hj, hclimb⟩ := h.climb_unwrap
  have hsize := h.size_le
  refine ⟨g.nodes.size - (1 + j), ?_⟩
  rw [← hclimb]
  congr 1
  omega

/-- The place of a child is its parent, if this is no parenthesis. -/
theorem climb_child (h : g.Stands n parent) (hn : n.label ≠ .paren) (hc : c ∈ n.children) :
    g.climb g.nodes.size c.unwrap.id = some (c.id, some n.id) := by
  have hchild := h.child hc
  have hlabel : (g.kind n.id).label ≠ .paren := by
    rwa [h.has.kind, Kind.label_map]
  obtain ⟨steps, hsteps⟩ := hchild.exists_climb_eq
  rw [hsteps, climb, hchild.parent?_eq]
  exact if_neg hlabel

theorem opensCall_eq (h : g.Stands n parent) {steps : Nat} (hsteps : n.size ≤ steps) :
    g.opensCall steps n.id = some n.isCall := by
  induction n using Node.induction generalizing parent steps with
  | step n ih =>
    obtain ⟨steps, rfl⟩ := Nat.exists_eq_add_one_of_ne_zero
      (Nat.ne_of_gt ((size_pos n).trans_le hsteps))
    rw [opensCall, h.has.kind]
    obtain ⟨i, p, k⟩ := n
    cases k with
    | paren inner =>
      have hlt := size_lt_of_mem_children (n := ⟨i, p, .paren inner⟩) (c := inner)
        List.mem_cons_self
      exact ih inner List.mem_cons_self (h.child List.mem_cons_self) (by omega)
    | _ => rfl

/-! ## Demands in a tree -/

section

variable {search : Nat → Option (Option Ty)}

/-- The search for the first expression that is no call ends if it ends for those expressions. -/
theorem isSome_searchFirst {ns : List Node} (hstands : ∀ x ∈ ns, ∃ parent, g.Stands x parent)
    (hns : ∀ x ∈ ns, x.isCall = false → (search x.id).isSome) :
    (g.searchFirst search (ns.map Node.id)).isSome := by
  induction ns with
  | nil => rfl
  | cons n ns ih =>
    obtain ⟨⟨parent, hn⟩, hns'⟩ := List.forall_mem_cons.mp hstands
    obtain ⟨hsearch, hsearches⟩ := List.forall_mem_cons.mp hns
    rw [List.map_cons, searchFirst, hn.opensCall_eq hn.size_le, Option.bind_eq_bind,
      Option.bind_some]
    cases hcall : n.isCall with
    | true => exact ih hns' hsearches
    | false =>
      obtain ⟨t, ht⟩ := Option.isSome_iff_exists.mp (hsearch hcall)
      rw [ht]
      rfl

/-- The search for the demand on a child ends if the searches for the neighbours end that the parent
looks at. -/
theorem isSome_searchDemand (h : g.Stands n parent) (hn : n.label ≠ .paren) (hc : c ∈ n.children)
    (hothers : ∀ y ∈ n.children, y.isCall = false → (search y.id).isSome)
    (hreceiver : ∀ r m as, n.kind = .call r m as → r.id ≠ c.id → (search r.id).isSome) :
    (g.searchDemand sc search c.unwrap.id).isSome := by
  have hfirst (ns : List Node) (hns : ns ⊆ n.children) :
      (g.searchFirst search (ns.map Node.id)).isSome :=
    isSome_searchFirst (fun x hx => ⟨_, h.child (hns hx)⟩) fun x hx => hothers x (hns hx)
  rw [searchDemand, h.climb_child hn hc]
  simp only [Option.bind_eq_bind, Option.bind_some, h.has.kind]
  obtain ⟨i, p, k⟩ := n
  cases k with
  | binary op left right =>
    simp only [Kind.map]
    split_ifs
    · rfl
    · rfl
    · exact hfirst [right] (List.subset_cons_self left [right])
    · exact hfirst [left] (List.cons_subset_cons left (List.nil_subset [right]))
  | call receiver method arguments =>
    simp only [Kind.map]
    split_ifs with hr
    · rfl
    · obtain ⟨t, ht⟩ := Option.isSome_iff_exists.mp (hreceiver _ _ _ rfl hr)
      simp only [ht, Option.bind_some]
      split_ifs <;> rfl
  | arrayLit elements =>
    simp only [Kind.map, List.filter_map]
    exact hfirst _ (List.filter_subset_self _)
  | _ => rfl

end

/-! ## Searches in a tree -/

/-- From so many steps on, the search for the demand on a call ends. -/
def Sought (g : Graph) (sc : Scope) (n : Node) (f : Nat) : Prop :=
  n.isCall = true → ∀ steps ≥ f, (g.searchDemand sc (g.search sc steps) n.unwrap.id).isSome

/-- The search for the type of an expression ends in as many steps as the search for the demand on
it needs and its size. -/
def Searched (g : Graph) (sc : Scope) (n : Node) : Prop :=
  ∀ f steps, Sought g sc n f → f + n.size ≤ steps → (g.search sc steps n.id).isSome

theorem isSome_search_of_not_isCall (hc : Searched g sc c) (hcall : c.isCall = false) {steps : Nat}
    (hsteps : c.size ≤ steps) : (g.search sc steps c.id).isSome :=
  hc 0 steps (fun h => absurd (hcall.symm.trans h) Bool.false_ne_true)
    ((Nat.zero_add _).trans_le hsteps)

/-- The search for the demand on a call that is a child ends once the searches for the other
children end. -/
theorem sought_child (h : g.Stands n parent) (hn : n.label ≠ .paren)
    (hsearched : ∀ y ∈ n.children, Searched g sc y) (hc : c ∈ n.children) :
    Sought g sc c (n.size - 1 - c.size) := by
  intro hcall steps hsteps
  have hfits {y : Node} (hy : y ∈ n.children) (hne : y ≠ c) : y.size ≤ steps := by
    have := add_size_lt hy hc hne
    omega
  refine h.isSome_searchDemand hn hc (fun y hy hycall => ?_) fun r m as hkind hne => ?_
  · refine isSome_search_of_not_isCall (hsearched y hy) hycall (hfits hy ?_)
    rintro rfl
    exact Bool.false_ne_true (hycall.symm.trans hcall)
  -- A receiver is demanded to be an object, whatever the other children are.
  · have hr : r ∈ n.children := by
      rw [Node.children, hkind]
      exact List.mem_cons_self
    refine hsearched r hr 0 steps (fun _ steps _ => ?_)
      ((Nat.zero_add _).trans_le (hfits hr fun heq => hne (congrArg Node.id heq)))
    rw [searchDemand, h.climb_child hn hr]
    simp only [Option.bind_eq_bind, Option.bind_some, h.has.kind, hkind, Kind.map, if_true]
    rfl

/-- **The search for the type of a part of a tree ends.** -/
theorem searched (h : g.Stands n parent) : Searched g sc n := by
  induction n using Node.induction generalizing parent with
  | step n ih =>
    intro f steps hsought hsteps
    have hpos := size_pos n
    obtain ⟨steps, rfl⟩ := Nat.exists_eq_add_one_of_ne_zero (n := steps) (by omega)
    have ih : ∀ c ∈ n.children, Searched g sc c := fun c hc => ih c hc (h.child hc)
    have child {c : Node} (hn : n.label ≠ .paren) (hc : c ∈ n.children) :
        ∃ t, g.search sc steps c.id = some t := by
      have hlt := size_lt_of_mem_children hc
      exact Option.isSome_iff_exists.mp (ih c hc _ steps (h.sought_child hn ih hc) (by omega))
    rw [search, h.has.kind]
    obtain ⟨i, p, k⟩ := n
    cases k with
    | unary op e =>
      obtain ⟨t, ht⟩ := child (c := e) (by rintro ⟨⟩) List.mem_cons_self
      exact Option.isSome_of_eq_some ht
    | paren inner =>
      have hlt := size_lt_of_mem_children (n := ⟨i, p, .paren inner⟩) (c := inner)
        List.mem_cons_self
      exact ih inner List.mem_cons_self f steps hsought (by omega)
    | arrayAccess array index =>
      obtain ⟨t, ht⟩ := child (c := array) (by rintro ⟨⟩) List.mem_cons_self
      simp only [Kind.map, ht]
      rfl
    | arrayLit elements =>
      cases elements with
      | nil => rfl
      | cons e es =>
        obtain ⟨t, ht⟩ := child (c := e) (by rintro ⟨⟩) List.mem_cons_self
        simp only [Kind.map, List.map_cons, ht]
        rfl
    | call receiver method arguments =>
      obtain ⟨t, ht⟩ := child (c := receiver) (by rintro ⟨⟩) List.mem_cons_self
      obtain ⟨d, hd⟩ := Option.isSome_iff_exists.mp (hsought rfl steps (by omega))
      have hd : g.searchDemand sc (g.search sc steps) i = some d := hd
      simp only [Kind.map, ht, hd, Option.bind_eq_bind, Option.bind_some]
      cases sc.knownReturn? t method <;> rfl
    | _ => rfl

end Stands

/-! ## All nodes -/

/-- What is known of a node below the root: it stands in the graph, and if it is a call, the search
for the demand on it ends. -/
structure Seeks (g : Graph) (sc : Scope) (n : Node) (parent : Option Nat) (f : Nat) : Prop where
  stands : g.Stands n parent
  sought : Stands.Sought g sc n f
  fits : f + n.size ≤ g.nodes.size

namespace Seeks

variable {f : Nat}

/-- The search for the demand on a child ends if the search for that on its parent does. -/
theorem child (h : g.Seeks sc n parent f) (hc : c ∈ n.children) :
    ∃ f', g.Seeks sc c (some n.id) f' := by
  have hlt := size_lt_of_mem_children hc
  have hfits := h.fits
  by_cases hlabel : n.label = .paren
  · refine ⟨f, h.stands.child hc, ?_, by omega⟩
    have hsought := h.sought
    obtain ⟨i, p, k⟩ := n
    cases k with
    | paren inner =>
      cases List.mem_singleton.mp hc
      exact hsought
    | _ => cases hlabel
  · refine ⟨n.size - 1 - c.size, h.stands.child hc, ?_, by omega⟩
    exact h.stands.sought_child hlabel (fun y hy => (h.stands.child hy).searched) hc

theorem of_mem_preorder (h : g.Seeks sc n parent f) {m : Node} (hm : m ∈ n.preorder) :
    ∃ parent' f', g.Seeks sc m parent' f' := by
  induction n using Node.induction generalizing parent f with
  | step n ih =>
    rcases Node.mem_preorder.mp hm with rfl | ⟨c, hc, hm⟩
    · exact ⟨parent, f, h⟩
    · obtain ⟨f', hchild⟩ := h.child hc
      exact ih c hc hchild hm

/-- What is demanded of the root is found at once. -/
theorem root (h : g.Stands n none) : g.Seeks sc n none 0 := by
  refine ⟨h, fun _ _ _ => ?_, (Nat.zero_add _).trans_le h.size_le⟩
  obtain ⟨steps, hsteps⟩ := h.exists_climb_eq
  rw [searchDemand, hsteps, climb, h.parent?_eq]
  rfl

theorem isSome_search (h : g.Seeks sc n parent f) : (g.search sc g.nodes.size n.id).isSome :=
  h.stands.searched f _ h.sought h.fits

end Seeks

/-- A number that is not in the table is that of a leaf. -/
theorem isSome_search_of_size_le (hsize : g.nodes.size ≤ id) (hpos : 0 < g.nodes.size) :
    (g.search sc g.nodes.size id).isSome := by
  have hkind : g.kind id = .this := by
    unfold kind
    rw [Array.getElem?_eq_none hsize]
    rfl
  obtain ⟨steps, hsteps⟩ := Nat.exists_eq_add_one_of_ne_zero (Nat.ne_of_gt hpos)
  rw [hsteps, search, hkind]
  rfl

/-- **The search for the type of an expression comes to an end**, for each number in the graph of a
tree that has been read and in the scope of each method: it takes no more nested steps than there
are nodes, and its result is the type that is found within that limit. -/
theorem search_eq_typeOf? {raw : RawNode} {root : Node} (h : Node.ofRaw? raw = .ok root)
    (table : SymbolTable) (method : String) (isStatic : Bool) (id : Nat) {steps : Nat}
    (hsteps : (ofTree root).nodes.size ≤ steps) :
    (ofTree root).search { table, method, isStatic } steps id =
      some ((ofTree root).typeOf? { table, method, isStatic } id) := by
  have hsize := size_ofTree h
  have hends :
      ((ofTree root).search { table, method, isStatic } (ofTree root).nodes.size id).isSome := by
    obtain hid | hid := Nat.lt_or_ge id root.size
    · obtain ⟨n, hn, rfl⟩ := Node.exists_id_eq_of_ofRaw? h hid
      obtain ⟨parent, f, hseeks⟩ := (Seeks.root (shows_ofTree h).stands).of_mem_preorder hn
      exact hseeks.isSome_search
    · exact isSome_search_of_size_le (hsize ▸ hid) (hsize ▸ size_pos root)
  obtain ⟨t, ht⟩ := Option.isSome_iff_exists.mp hends
  rw [search_mono hsteps ht, typeOf?, typeWithin?_of_search ht]

/-- A call in parentheses that is compared with the negation of another call. Its type is that of
its neighbour, which is found by going up from the other call. -/
theorem search_eq_typeOf?_neighbour : ∃ raw root table n receiver arguments,
    Node.ofRaw? raw = .ok root ∧ SymbolTable.ofTree? root = .ok table ∧ n ∈ root.preorder ∧
    n.kind = .call receiver "g" arguments ∧
    let sc : Scope := { table, method := "f", isStatic := false }
    (ofTree root).typeOf? sc n.id = some .boolean ∧
      (ofTree root).search sc (ofTree root).nodes.size n.id =
        some ((ofTree root).typeOf? sc n.id) := by
  obtain ⟨root, table, h, hp⟩ := Accepted.exists_of_any
    "import io;class A{boolean f(){return (io.g(io.h()))==!io.i();}}"
    (fun root table => root.preorder.any fun n => match n.kind with
      | .call _ method _ => method = "g" &&
        (ofTree root).typeOf? { table, method := "f", isStatic := false } n.id = some .boolean
      | _ => false)
    (by decide +kernel)
  obtain ⟨n, hn, hp⟩ := List.any_eq_true.mp hp
  split at hp
  · rename_i receiver method arguments hkind
    obtain ⟨hmethod, htype⟩ := (Bool.and_eq_true _ _).mp hp
    obtain rfl := of_decide_eq_true hmethod
    obtain ⟨raw, -, hread⟩ := h.tree
    exact ⟨raw, root, table, n, receiver, arguments, hread, h.declared, hn, hkind,
      of_decide_eq_true htype, search_eq_typeOf? hread table "f" false n.id le_rfl⟩
  · cases hp

end Graph

end MiniJava
