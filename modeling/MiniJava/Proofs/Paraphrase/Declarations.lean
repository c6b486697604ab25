import Mathlib.Data.List.Basic
import MiniJava.Proofs.Paraphrase.Tree
import MiniJava.SymbolTable.OfTree

/-!
# Paraphrases declare the same

A paraphrase of a program has the same symbol table (`ofTree?_eq`), and its methods paraphrase those
of the program (`exists_methods`).
-/

namespace MiniJava

open Node (Paraphrases Place)

namespace SymbolTable

variable {t : SymbolTable} {place : Place} {n n' : Node}

/-! ## Members -/

theorem declared?_eq (h : Paraphrases t .part n n') : declared? n' = declared? n := by
  cases h with
  | @node _ i j p q k => cases k <;> rfl

theorem isVarargsParam_eq (h : Paraphrases t .part n n') :
    isVarargsParam n' = isVarargsParam n := by
  cases h with
  | @node _ i j p q k => cases k <;> rfl

/-- What is collected from the members one by one is the same. -/
theorem filterMap_eq {β : Type} {f : Node → Option β} {ns : List (Node × Node)}
    (h : ∀ x ∈ ns, f x.2 = f x.1) :
    (ns.map Prod.snd).filterMap f = (ns.map Prod.fst).filterMap f := by
  rw [List.filterMap_map, List.filterMap_map]
  exact List.filterMap_congr h

theorem signatureOf?_eq (h : Paraphrases t .part n n') : signatureOf? n' = signatureOf? n := by
  cases h with
  | @node _ i j p q k _ parts =>
    cases k with
    | methodDecl head params locals body =>
      have hparams {x : Node × Node} (hx : x ∈ params) : Paraphrases t .part x.1 x.2 :=
        parts x (List.mem_append_left _ (List.mem_append_left _ hx))
      have hlocals {x : Node × Node} (hx : x ∈ locals) : Paraphrases t .part x.1 x.2 :=
        parts x (List.mem_append_left _ (List.mem_append_right _ hx))
      have hlast : (params.map Prod.snd).getLast?.map isVarargsParam =
          (params.map Prod.fst).getLast?.map isVarargsParam := by
        rw [List.getLast?_map, List.getLast?_map, Option.map_map, Option.map_map]
        exact Option.map_congr fun x hx =>
          isVarargsParam_eq (hparams (List.mem_of_getLast? hx))
      simp only [Kind.map, signatureOf?, hlast, filterMap_eq fun x hx => declared?_eq (hparams hx),
        filterMap_eq fun x hx => declared?_eq (hlocals hx)]
    | _ => rfl

/-! ## The symbol table -/

/-- What a class declares: its name and superclass, the fields and the methods. -/
def ClassParts.declared (c : ClassParts) :
    String × Option String × List Variable × List Signature :=
  (c.name, c.superclass, c.fields.filterMap declared?, c.methods.filterMap signatureOf?)

/-- What is neither an import nor a class is passed over. -/
theorem topLevel_cons_of_isExpr (hn : n.IsExpr) (ns : List Node) (imports : List String)
    (c? : Option ClassParts) : topLevel (n :: ns) imports c? = topLevel ns imports c? := by
  obtain ⟨i, p, k⟩ := n
  cases k <;> first | (cases c? <;> rfl) | cases hn

/-- The imports are the same, and the class declares the same. -/
theorem topLevel_eq {items : List (Node × Node)} (h : ∀ x ∈ items, Paraphrases t .operand x.1 x.2)
    (imports : List String) {c? c'? : Option ClassParts}
    (hc : c'?.map ClassParts.declared = c?.map ClassParts.declared) :
    (topLevel (items.map Prod.snd) imports c'?).map (Prod.map id ClassParts.declared) =
      (topLevel (items.map Prod.fst) imports c?).map (Prod.map id ClassParts.declared) := by
  induction items generalizing imports c? c'? with
  | nil => cases c? <;> cases c'? <;> simp_all [topLevel, Except.map]
  | cons x xs ih =>
    obtain ⟨hx, hxs⟩ := List.forall_mem_cons.mp h
    obtain ⟨n, n'⟩ := x
    rw [List.map_cons, List.map_cons]
    cases hx with
    | paren _ isExpr =>
      rw [topLevel_cons_of_isExpr isExpr, topLevel_cons_of_isExpr (n := ⟨_, _, .paren _⟩) rfl]
      exact ih hxs imports hc
    | @node _ i j p q k below parts =>
      cases k with
      | importDecl path =>
        cases c? <;> cases c'?
        · exact ih hxs (path :: imports) rfl
        · cases hc
        · cases hc
        · rfl
      | classDecl name superclass fields methods =>
        have hfields := filterMap_eq fun x hx => declared?_eq (parts x (List.mem_append_left _ hx))
        have hmethods := filterMap_eq fun x hx =>
          signatureOf?_eq (parts x (List.mem_append_right _ hx))
        cases c? <;> cases c'?
        · exact ih hxs imports (by
            simp only [Option.map_some, ClassParts.declared, hfields, hmethods])
        · cases hc
        · cases hc
        · rfl
      | _ => cases c? <;> cases c'? <;> exact ih hxs imports hc

/-- **A paraphrase has the same symbol table.** -/
theorem ofTree?_eq (h : Paraphrases t .part n n') : ofTree? n' = ofTree? n := by
  cases h with
  | @node _ i j p q k below =>
    have hnone : (none : Option ClassParts).map ClassParts.declared =
        none.map ClassParts.declared := rfl
    have htop := topLevel_eq below [] hnone
    unfold ofTree? Node.children
    rw [Kind.children_map, Kind.children_map]
    generalize topLevel (k.children.map Prod.snd) [] none = r' at htop ⊢
    generalize topLevel (k.children.map Prod.fst) [] none = r at htop ⊢
    cases r <;> cases r'
    case error.error => exact congrArg Except.error (Except.error.inj htop)
    case error.ok => cases htop
    case ok.error => cases htop
    case ok.ok r r' =>
      obtain ⟨imports, c⟩ := r
      obtain ⟨imports', c'⟩ := r'
      simp only [Except.map, Prod.map, Except.ok.injEq, Prod.mk.injEq, ClassParts.declared,
        id] at htop
      obtain ⟨rfl, hname, hsuper, hfields, hsignatures⟩ := htop
      simp only [bind, Except.bind, hname, hsuper, hfields, hsignatures]

end SymbolTable

/-! ## Methods -/

namespace Node

variable {t : SymbolTable} {n n' : Node}

/-- The first node of a sort is found at the same place. -/
theorem find?_label_eq {ns : List (Node × Node)} (h : ∀ x ∈ ns, Paraphrases t .part x.1 x.2)
    (l : Label) :
    ((ns.map Prod.fst).find? (·.kind.label = l) = none ∧
      (ns.map Prod.snd).find? (·.kind.label = l) = none) ∨
    ∃ x ∈ ns, (ns.map Prod.fst).find? (·.kind.label = l) = some x.1 ∧
      (ns.map Prod.snd).find? (·.kind.label = l) = some x.2 := by
  induction ns with
  | nil => exact .inl ⟨rfl, rfl⟩
  | cons x xs ih =>
    obtain ⟨hx, hxs⟩ := List.forall_mem_cons.mp h
    have hlabel : x.2.kind.label = x.1.kind.label := hx.label_eq
    rw [List.map_cons, List.map_cons, List.find?_cons, List.find?_cons, hlabel]
    cases decide (x.1.kind.label = l) with
    | true => exact .inr ⟨x, List.mem_cons_self, rfl, rfl⟩
    | false =>
      refine (ih hxs).imp_right fun ⟨y, hy, hfound⟩ => ?_
      exact ⟨y, List.mem_cons_of_mem x hy, hfound⟩

/-- The class of a paraphrase paraphrases the class. -/
theorem Paraphrases.exists_class (h : Paraphrases t .part n n') :
    (n.class? = none ∧ n'.class? = none) ∨
      ∃ c c', n.class? = some c ∧ n'.class? = some c' ∧ Paraphrases t .part c c' := by
  cases h with
  | @node _ i j p q k _ parts =>
    unfold class? items
    cases k with
    | program items =>
      refine (find?_label_eq parts .classDecl).imp_right fun ⟨x, hx, hfound⟩ => ?_
      exact ⟨x.1, x.2, hfound.1, hfound.2, parts x hx⟩
    | _ => exact .inl ⟨rfl, rfl⟩

/-- **The methods of a paraphrase paraphrase the methods.** -/
theorem Paraphrases.exists_methods (h : Paraphrases t .part n n') :
    ∃ ms : List (Node × Node), n.methods = ms.map Prod.fst ∧ n'.methods = ms.map Prod.snd ∧
      ∀ x ∈ ms, Paraphrases t .part x.1 x.2 := by
  unfold methods
  obtain ⟨hc, hc'⟩ | ⟨c, c', hc, hc', hclass⟩ := h.exists_class
  · rw [hc, hc']
    exact ⟨[], rfl, rfl, List.forall_mem_nil _⟩
  · rw [hc, hc']
    cases hclass with
    | @node _ i j p q k _ parts =>
      cases k with
      | classDecl name superclass fields methods =>
        exact ⟨methods, rfl, rfl, fun x hx => parts x (List.mem_append_right _ hx)⟩
      | _ => exact ⟨[], rfl, rfl, List.forall_mem_nil _⟩

end Node

end MiniJava
