import MiniJava.Proofs.Lowering.Mentions
import MiniJava.Proofs.Optimize.Lowering

/-!
# What simplified code mentions

When a tree is simplified, its code mentions nothing that it did not mention before, since each node
that is kept asks for the same, and a literal asks for nothing. A field or a new array may be gone
with an expression that has become a literal, but not a call of a method
(`Node.Simplified.thins`).

So what an accepted program calls can be read off its source, whether it is optimized or not
(`Accepted.thins_of_lowered`).
-/

namespace MiniJava

open Ir

/-- A method is called, and no constructor. -/
def Ir.Mention.isOrdinaryCall : Mention → Bool
  | call c => c.invocation != .special
  | _ => false

/-- Of what the first code mentions, the second mentions all calls of methods, and it mentions
nothing else. -/
structure Thins (ms ms' : List Mention) : Prop where
  subset : ms' ⊆ ms
  calls : ∀ x ∈ ms, x.isOrdinaryCall = true → x ∈ ms'

namespace Thins

variable {ms ms' ms'' ns ns' : List Mention}

protected theorem refl (ms : List Mention) : Thins ms ms :=
  ⟨List.Subset.refl _, fun _ hx _ => hx⟩

protected theorem trans (h : Thins ms ms') (h' : Thins ms' ms'') : Thins ms ms'' :=
  ⟨List.Subset.trans h'.subset h.subset, fun x hx hcall => h'.calls x (h.calls x hx hcall) hcall⟩

protected theorem append (h : Thins ms ms') (h' : Thins ns ns') :
    Thins (ms ++ ns) (ms' ++ ns') where
  subset := List.append_subset.mpr ⟨List.Subset.trans h.subset (List.subset_append_left _ _),
    List.Subset.trans h'.subset (List.subset_append_right _ _)⟩
  calls x hx hcall :=
    List.mem_append.mpr ((List.mem_append.mp hx).imp (h.calls x · hcall) (h'.calls x · hcall))

protected theorem flatMap {α β : Type} {f : α → List Mention} {g : β → List Mention} {as : List α}
    {bs : List β} (h : List.Forall₂ (fun a b => Thins (f a) (g b)) as bs) :
    Thins (as.flatMap f) (bs.flatMap g) := by
  induction h with
  | nil => exact .refl _
  | cons h _ ih => exact h.append ih

end Thins

/-! ## Nodes that are kept -/

namespace Scope

variable {sc : Scope} {P : Vars → Prop} {n n' : Node} {cs : List (Node × Node)}

theorem Alike.argumentTypes (hn : sc.Alike P n n') (h : ∀ c ∈ cs, sc.Alike P c.1 c.2)
    (method : String) : sc.argumentTypes n' method (cs.map Prod.snd) =
      sc.argumentTypes n method (cs.map Prod.fst) := by
  unfold Scope.argumentTypes
  rw [hn.argumentDemands]
  generalize sc.argumentDemands n method (cs.map Prod.fst) = ds
  induction cs generalizing ds with
  | nil => rfl
  | cons c cs ih =>
    obtain ⟨hc, hcs⟩ := List.forall_mem_cons.mp h
    cases ds with
    | nil => rfl
    | cons d ds => exact congrArg₂ List.cons (hc.type d) (ih hcs ds)

theorem Alike.signatureTypes (hn : sc.Alike P n n') (h : ∀ c ∈ cs, sc.Alike P c.1 c.2)
    (method : String) : sc.signatureTypes n' method (cs.map Prod.snd) =
      sc.signatureTypes n method (cs.map Prod.fst) := by
  unfold Scope.signatureTypes
  rw [hn.isLocalReceiver, hn.argumentTypes h]

variable {t : SymbolTable} {i : Nat} {p : Position} {k : Kind (Node × Node)}

/-- A node that is kept asks for what it did before. -/
theorem mentionsAt_eq_of_kept
    (h : Node.Simplified t (some sc) ⟨i, p, k.map Prod.fst⟩ ⟨i, p, k.map Prod.snd⟩)
    (below : ∀ x ∈ k.children, Node.Simplified t (some sc) x.1 x.2)
    (hn : Node.WellFormed ⟨i, p, k.map Prod.fst⟩) (d : Ty) :
    sc.mentionsAt d ⟨i, p, k.map Prod.snd⟩ = sc.mentionsAt d ⟨i, p, k.map Prod.fst⟩ := by
  cases k with
  | newArray element size =>
    have hsize := below size List.mem_cons_self
    simp only [Kind.map, mentionsAt]
    rw [hsize.alike.type]
  | call receiver method arguments =>
    have hreceiver := below receiver List.mem_cons_self
    have harguments : ∀ x ∈ arguments, sc.Alike (fun _ => False) x.1 x.2 :=
      fun x hx => (below x (List.mem_cons_of_mem _ hx)).alike
    have hwell : receiver.1.WellFormed := hn.of_mem_children List.mem_cons_self
    have htype : sc.resultType d ⟨i, p, .call receiver.2 method (arguments.map Prod.snd)⟩ =
        sc.resultType d ⟨i, p, .call receiver.1 method (arguments.map Prod.fst)⟩ :=
      congrArg (Option.getD · d) (h.alike.type d)
    simp only [Kind.map, mentionsAt, callee]
    rw [htype, hreceiver.staticReceiver?_eq hwell, hreceiver.alike.type,
      hreceiver.alike.signatureTypes harguments, hreceiver.alike.packing?_eq harguments]
  | _ => rfl

/-- Only calls ask for calls, apart from those of constructors. -/
theorem label_eq_call_of_mem_mentionsAt {x : Mention} {d : Ty} (hx : x ∈ sc.mentionsAt d n)
    (hcall : x.isOrdinaryCall = true) : n.label = .call := by
  cases asksFor_of_mem_mentionsAt hx with
  | call hkind => exact congrArg Kind.label hkind
  | _ => cases hcall

end Scope

/-! ## Simplified trees -/

namespace Node

variable {t : SymbolTable} {sc : Scope} {n n' m m' : Node}

/-- **Simplifying adds nothing that is mentioned, and it takes away no call of a method.** -/
theorem Simplified.thins (h : Simplified t (some sc) n n') (hn : n.WellFormed)
    (hmethods : ∀ m ∈ n.preorder, m.label ≠ .methodDecl) (d : Ty) :
    Thins (sc.mentions d n) (sc.mentions d n') := by
  refine within (motive := fun n n' => n.WellFormed → (∀ m ∈ n.preorder, m.label ≠ .methodDecl) →
      ∀ d, Thins (sc.mentions d n) (sc.mentions d n'))
    (fun n c _ hcalls _ _ hmethods d => ⟨?_, fun x hx hcall => ?_⟩)
    (fun i p k hkept below hn hmethods d => ?_) h hmethods hn hmethods d
  · have hnothing : sc.mentions d (n.become c) = [] := by cases c <;> rfl
    rw [hnothing]
    exact List.nil_subset _
  · obtain ⟨s, hs, hx⟩ := List.mem_flatMap.mp hx
    have hmem := (scope_of_mem_sitesWithin hmethods hs).2
    exact absurd (Scope.label_eq_call_of_mem_mentionsAt hx hcall) (hcalls s.node hmem)
  · have hlabel := hmethods _ (mem_preorder_self _)
    have hlabel' : (Node.mk i p (k.map Prod.snd)).label ≠ .methodDecl := by
      rw [label, Kind.label_map] at hlabel ⊢
      exact hlabel
    have hsimplified := fun x hx => (below x hx).2.1
    rw [Scope.mentions_eq hlabel', Scope.mentions_eq hlabel,
      Scope.mentionsAt_eq_of_kept hkept hsimplified hn,
      Scope.Alike.demands fun x hx => (hsimplified x hx).alike, children, children,
      Kind.children_map, Kind.children_map, List.zip_map_left, List.zip_map_left, List.flatMap_map,
      List.flatMap_map]
    refine (Thins.refl _).append (.flatMap (List.forall₂_same.mpr fun y hy => ?_))
    obtain ⟨hmem, -, hthins⟩ := below y.1 (List.of_mem_zip hy).1
    exact hthins (hn.of_mem_children hmem)
      (fun m hm => hmethods m (mem_preorder_of_mem_children hmem hm)) y.2

/-- A method that is simplified mentions nothing new, and all calls of methods. -/
theorem Reduces.thins (h : Reduces t m m') : Thins (m.mentions t) (m'.mentions t) := by
  obtain ⟨head, params, locals, body, body', hkind, hkind', happroves, happroves', hbody⟩ := h
  rw [mentions_of_method hkind happroves.wellFormed,
    mentions_of_method hkind' happroves'.wellFormed]
  have hmem := (List.forall₂_and_left _ _).mpr ⟨fun c hc => hc, hbody⟩
  refine .flatMap (hmem.imp fun c c' ⟨hc, h⟩ => ?_)
  obtain ⟨happroves, -, hmethods⟩ := happroves.statement hkind hc
  exact h.thins happroves.wellFormed hmethods .int

theorem thins_of_reduces (h : Relation.ReflTransGen (Reduces t) m m') :
    Thins (m.mentions t) (m'.mentions t) := by
  induction h with
  | refl => exact .refl _
  | tail _ hstep ih => exact ih.trans hstep.thins

end Node

/-! ## Programs -/

namespace Accepted

variable {source : String} {root root' : Node} {table : SymbolTable} {options : CompileOptions}
  {unit : ClassUnit}

/-- **The methods of a class mention what the sites of the tree ask for that is lowered.** -/
theorem forall₂_mentions_of_lowers (h : Accepted source root table)
    (hroot' : options.Lowers table root root') (hlower : lower table root' = .ok unit) :
    List.Forall₂ (fun n m => Mentions (n.mentions table) m.code) root'.methods unit.methods := by
  have hmethods := (List.forall₂_and_left _ _).mpr ⟨fun n hn => hn, forall₂_lowerMethod hlower⟩
  refine hmethods.imp fun n m ⟨hn, s, s', _, hm⟩ => ?_
  obtain ⟨head, params, locals, body, hkind, happroves⟩ := (h.sound_of_lowers hroot').1.approves hn
  exact lowerMethod_mentions h.isIdentifier_className (fun _ => h.isArray_of_isVarargs) hkind
    happroves hm

/-- **The code of a method mentions nothing but what the sites of its source ask for, and all calls
of methods that these ask for**, whether the program is optimized or not. -/
theorem thins_of_lowered (h : Accepted source root table) {n n' : Node} (hn : n ∈ root.methods)
    (hsteps : Relation.ReflTransGen (Node.Reduces table) n n') {m : Method} {s s' : Supply}
    (hm : (lowerMethod (Scope.ofMethod table) n').run s = .ok (m, s')) :
    Thins (n.mentions table) (mentions m.code) := by
  obtain ⟨head, params, locals, body, hkind, happroves⟩ := h.approves hn
  obtain ⟨body', hkind', happroves'⟩ := Node.of_reduces hsteps hkind happroves
  have hmentions := lowerMethod_mentions h.isIdentifier_className (fun _ => h.isArray_of_isVarargs)
    hkind' happroves' hm
  refine (Node.thins_of_reduces hsteps).trans ⟨fun x => (hmentions x).mp, fun x hx _ => ?_⟩
  exact (hmentions x).mpr hx

end Accepted

end MiniJava
