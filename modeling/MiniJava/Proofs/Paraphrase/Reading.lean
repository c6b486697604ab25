import MiniJava.Proofs.Paraphrase.Brackets
import MiniJava.Proofs.Paraphrase.Tree
import MiniJava.Proofs.Tree.Numbering
import MiniJava.Proofs.Tree.Read

/-!
# Trees with more parentheses paraphrase each other

A raw tree with more parentheses is read as a paraphrase (`paraphrases_of_ofRaw?`). The two readings
number their nodes differently, so they are compared by what they yield: `Relates R x y` says that
the results of two readings are in a relation, whatever has been numbered before.
-/

namespace MiniJava

/-- The parts of a node are no expressions. -/
theorem Kind.not_isExpr_of_mem_parts {k : Kind Node} (h : k.Fits) :
    ∀ c ∈ k.parts, ¬ c.IsExpr := by
  have of_label {c : Node} {l : Label} (hc : c.label = l) (hl : l.isExpression = false) :
      ¬ c.IsExpr := by
    rw [Node.IsExpr, hc, hl]
    exact Bool.false_ne_true
  intro c hc
  cases k with
  | program items => exact (h c hc).elim (of_label · rfl) (of_label · rfl)
  | classDecl name superclass fields methods =>
    exact (List.mem_append.mp hc).elim (fun hc => of_label (h.2.1 c hc) rfl)
      fun hc => of_label (h.2.2 c hc) rfl
  | methodDecl head params locals body =>
    rcases List.mem_append.mp hc with hc | hc
    · exact (List.mem_append.mp hc).elim (fun hc => of_label (h.1 c hc) rfl)
        fun hc => of_label (h.2.1 c hc) rfl
    · exact (h.2.2 c hc).not_isExpr
  | ifElse condition thenBranch elseBranch =>
    rcases List.mem_cons.mp hc with rfl | hc
    · exact h.2.1.not_isExpr
    · exact (h.2.2 c (Option.mem_toList.mp hc)).not_isExpr
  | whileLoop condition body =>
    rw [List.mem_singleton.mp hc]
    exact h.2.not_isExpr
  | block statements => exact (h c hc).not_isExpr
  | _ => cases hc

namespace Node

/-! ## Two readings -/

/-- Where both readings succeed, what they yield is related. -/
def Relates {α β : Type} (R : α → β → Prop) (x : Numbering α) (y : Numbering β) : Prop :=
  ∀ s s' a b u u', x.run s = .ok (a, u) → y.run s' = .ok (b, u') → R a b

namespace Relates

variable {α β γ δ : Type} {R : α → β → Prop} {S : γ → δ → Prop} {x : Numbering α} {y : Numbering β}
  {f : α → Numbering γ} {g : β → Numbering δ}

protected theorem pure {a : α} {b : β} (h : R a b) : Relates R (pure a) (pure b) := by
  rintro _ _ _ _ _ _ ⟨⟩ ⟨⟩
  exact h

protected theorem bind (h : Relates R x y) (hfg : ∀ a b, R a b → Relates S (f a) (g b)) :
    Relates S (x >>= f) (y >>= g) := by
  intro s s' c d u u' hx hy
  obtain ⟨a, v, ha, hc⟩ := run_bind_eq_ok.mp hx
  obtain ⟨b, v', hb, hd⟩ := run_bind_eq_ok.mp hy
  exact hfg a b (h s s' a b v v' ha hb) v v' c d u u' hc hd

theorem throw_left (e : TreeError) : Relates R (throw e) y := by
  rintro _ _ _ _ _ _ ⟨⟩

theorem throw_right (e : TreeError) : Relates R x (throw e) := by
  rintro _ _ _ _ _ _ _ ⟨⟩

/-- What may fail without a state. -/
theorem lift {α : Type} {x y : Except TreeError α} {f : α → Numbering γ} {g : α → Numbering δ}
    (h : ∀ a b, x = .ok a → y = .ok b → Relates S (f a) (g b)) :
    Relates S (liftM x >>= f) (liftM y >>= g) := by
  cases x with
  | error e => exact throw_left e
  | ok a =>
    cases y with
    | error e => exact throw_right e
    | ok b => exact h a b rfl rfl

/-- The same may fail in both readings. -/
theorem lift_same {α : Type} {x : Except TreeError α} {f : α → Numbering γ} {g : α → Numbering δ}
    (h : ∀ a, Relates S (f a) (g a)) : Relates S (liftM x >>= f) (liftM x >>= g) :=
  lift fun a b ha hb => by
    cases ha.symm.trans hb
    exact h a

theorem finish {R : Node → Node → Prop} {raw raw' : RawNode} {k k' : Kind Node}
    (h : ∀ i j, R ⟨i, raw.position, k⟩ ⟨j, raw'.position, k'⟩) :
    Relates R (Node.finish raw k) (Node.finish raw' k') := by
  rintro s s' _ _ _ _ ⟨⟩ ⟨⟩
  exact h s s'

end Relates

/-! ## Rows of children -/

/-- What is read of the second raw node is related to what is read of the first. Where kinds matter
they are the same, for parentheses are not read there; and so are written types. -/
structure ReadsLike (R : Node → Node → Prop) (a b : RawNode) : Prop where
  reads : Relates R (read a) (read b)
  kind : b.kind = a.kind ∨ b.kind = Label.paren.name
  type : ∀ ty ty', a.typeExpr = .ok ty → b.typeExpr = .ok ty' → ty' = ty

section Rows

variable {R : Node → Node → Prop} {cs : List (RawNode × RawNode)}

theorem readChild_relates (kind : String) (h : ∀ x ∈ cs, ReadsLike R x.1 x.2) (n index : Nat) :
    Relates R (readChild kind (cs.map Prod.fst) n index)
      (readChild kind (cs.map Prod.snd) n index) := by
  induction cs generalizing n with
  | nil => exact .throw_left _
  | cons x xs ih =>
    cases n with
    | zero => exact (h x List.mem_cons_self).reads
    | succ n => exact ih (fun y hy => h y (List.mem_cons_of_mem x hy)) n

theorem readChild?_relates (h : ∀ x ∈ cs, ReadsLike R x.1 x.2) (n : Nat) :
    Relates (fun a b => ∃ x? : Option (Node × Node), a = x?.map Prod.fst ∧ b = x?.map Prod.snd ∧
      ∀ x ∈ x?, R x.1 x.2)
      (readChild? (cs.map Prod.fst) n) (readChild? (cs.map Prod.snd) n) := by
  induction cs generalizing n with
  | nil => exact .pure ⟨none, rfl, rfl, by rintro _ ⟨⟩⟩
  | cons x xs ih =>
    cases n with
    | zero =>
      refine (h x List.mem_cons_self).reads.bind fun a b hab => .pure ⟨some (a, b), rfl, rfl, ?_⟩
      rintro _ ⟨⟩
      exact hab
    | succ n => exact ih (fun y hy => h y (List.mem_cons_of_mem x hy)) n

theorem readAll_relates (h : ∀ x ∈ cs, ReadsLike R x.1 x.2) :
    Relates (List.Forall₂ R) (readAll (cs.map Prod.fst)) (readAll (cs.map Prod.snd)) := by
  induction cs with
  | nil => exact .pure .nil
  | cons x xs ih =>
    obtain ⟨hx, hxs⟩ := List.forall_mem_cons.mp h
    exact hx.reads.bind fun a b hab => (ih hxs).bind fun as bs hrest => .pure (.cons hab hrest)

theorem readAllAfter_relates (h : ∀ x ∈ cs, ReadsLike R x.1 x.2) :
    Relates (List.Forall₂ R) (readAllAfter (cs.map Prod.fst)) (readAllAfter (cs.map Prod.snd)) := by
  cases cs with
  | nil => exact .pure .nil
  | cons x xs => exact readAll_relates (List.forall_mem_cons.mp h).2

theorem readItems_relates (kind : String) (h : ∀ x ∈ cs, ReadsLike R x.1 x.2) :
    Relates (List.Forall₂ R) (readItems kind (cs.map Prod.fst)) (readItems kind (cs.map Prod.snd)) := by
  induction cs with
  | nil => exact .pure .nil
  | cons x xs ih =>
    obtain ⟨hx, hxs⟩ := List.forall_mem_cons.mp h
    rw [List.map_cons, List.map_cons, readItems, readItems]
    split
    · exact .throw_left _
    split
    · exact .throw_right _
    · exact hx.reads.bind fun a b hab => (ih hxs).bind fun as bs hrest => .pure (.cons hab hrest)

theorem readMembers_relates (kind : String) (h : ∀ x ∈ cs, ReadsLike R x.1 x.2) :
    Relates (fun a b => List.Forall₂ R a.1 b.1 ∧ List.Forall₂ R a.2 b.2)
      (readMembers kind (cs.map Prod.fst)) (readMembers kind (cs.map Prod.snd)) := by
  induction cs with
  | nil => exact .pure ⟨.nil, .nil⟩
  | cons x xs ih =>
    obtain ⟨hx, hxs⟩ := List.forall_mem_cons.mp h
    rw [List.map_cons, List.map_cons, readMembers, readMembers]
    rcases hx.kind with hkind | hkind <;> rw [hkind]
    · split
      · exact hx.reads.bind fun a b hab => (ih hxs).bind fun as bs hrest =>
          .pure ⟨.cons hab hrest.1, hrest.2⟩
      split
      · exact hx.reads.bind fun a b hab => (ih hxs).bind fun as bs hrest =>
          .pure ⟨hrest.1, .cons hab hrest.2⟩
      · exact .throw_left _
    · exact .throw_right _

/-- The parts that have been read of two methods are related. -/
structure MethodParts.Relate (R : Node → Node → Prop) (parts parts' : MethodParts) : Prop where
  returnType : parts'.returnType = parts.returnType
  params : List.Forall₂ R parts.params parts'.params
  locals : List.Forall₂ R parts.locals parts'.locals
  body : List.Forall₂ R parts.body parts'.body

theorem readMethod_relates (kind : String) (h : ∀ x ∈ cs, ReadsLike R x.1 x.2)
    {parts parts' : MethodParts} (hparts : parts.Relate R parts') :
    Relates (MethodParts.Relate R)
      (readMethod kind (cs.map Prod.fst) parts) (readMethod kind (cs.map Prod.snd) parts') := by
  induction cs generalizing parts parts' with
  | nil => exact .pure hparts
  | cons x xs ih =>
    obtain ⟨hx, hxs⟩ := List.forall_mem_cons.mp h
    replace ih {parts parts' : MethodParts} (hparts : parts.Relate R parts') := ih hxs hparts
    rw [List.map_cons, List.map_cons, readMethod, readMethod]
    rcases hx.kind with hkind | hkind <;> rw [hkind]
    · split
      · rw [hparts.returnType]
        split
        · exact .throw_left _
        · exact .lift fun ty ty' hty hty' =>
            ih { hparts with returnType := congrArg some (hx.type ty ty' hty hty') }
      split
      · exact hx.reads.bind fun a b hab => ih { hparts with params := hparts.params.cons hab }
      split
      · exact hx.reads.bind fun a b hab => ih { hparts with locals := hparts.locals.cons hab }
      split
      · exact hx.reads.bind fun a b hab => ih { hparts with body := hparts.body.cons hab }
      · exact .throw_left _
    · exact .throw_right _

end Rows

/-! ## Nodes -/

/-- Where the first tree is well-formed the second paraphrases it, and if it is no expression then
even where a part stands. -/
def Says (t : SymbolTable) (n n' : Node) : Prop :=
  n.WellFormed → Paraphrases t .operand n n' ∧ (¬ n.IsExpr → Paraphrases t .part n n')

variable {t : SymbolTable}

theorem says_of_node {i j : Nat} {p q : Position} {k : Kind (Node × Node)}
    (h : ∀ x ∈ k.children, Says t x.1 x.2) :
    Says t ⟨i, p, k.map Prod.fst⟩ ⟨j, q, k.map Prod.snd⟩ := by
  intro hwf
  have hwellFormed (x : Node × Node) (hx : x ∈ k.children) : x.1.WellFormed := by
    refine hwf.of_mem_children ?_
    rw [children, Kind.children_map]
    exact List.mem_map_of_mem hx
  have below (x : Node × Node) (hx : x ∈ k.children) : Paraphrases t .operand x.1 x.2 :=
    (h x hx (hwellFormed x hx)).1
  have parts (x : Node × Node) (hx : x ∈ k.parts) : Paraphrases t .part x.1 x.2 := by
    have hchild := k.parts_subset_children hx
    refine (h x hchild (hwellFormed x hchild)).2 (Kind.not_isExpr_of_mem_parts hwf.fits x.1 ?_)
    rw [Kind.parts_map]
    exact List.mem_map_of_mem hx
  exact ⟨.node below parts, fun _ => .node below parts⟩

theorem finish_relates {raw raw' : RawNode} {k : Kind (Node × Node)}
    (h : ∀ x ∈ k.children, Says t x.1 x.2) :
    Relates (Says t) (finish raw (k.map Prod.fst)) (finish raw' (k.map Prod.snd)) :=
  .finish fun _ _ => says_of_node h

variable {kind : String} {attributes : Attributes} {cs : List (RawNode × RawNode)}

/-- The types at the heads of two declarations. -/
theorem declaredType_eq (h : ∀ x ∈ cs, ReadsLike (Says t) x.1 x.2) {ty ty' : TypeExpr}
    (hty : RawNode.declaredType ⟨kind, attributes, cs.map Prod.fst⟩ = .ok ty)
    (hty' : RawNode.declaredType ⟨kind, attributes, cs.map Prod.snd⟩ = .ok ty') : ty' = ty := by
  cases cs with
  | nil => cases hty
  | cons x xs => exact (h x List.mem_cons_self).type ty ty' hty hty'

/-- **What is read of a node is related if what is read of its children is.** -/
theorem read_relates (h : ∀ x ∈ cs, ReadsLike (Says t) x.1 x.2) :
    Relates (Says t) (read ⟨kind, attributes, cs.map Prod.fst⟩)
      (read ⟨kind, attributes, cs.map Prod.snd⟩) := by
  have child (n index : Nat) := readChild_relates kind h n index
  have two {x y : Node × Node} (hx : Says t x.1 x.2) (hy : Says t y.1 y.2) :
      ∀ z ∈ [x, y], Says t z.1 z.2 :=
    List.forall_mem_cons.mpr ⟨hx, List.forall_mem_singleton.mpr hy⟩
  unfold read
  cases Label.ofName? kind with
  | none => exact .throw_left _
  | some l =>
    cases l with
    | program =>
      refine (readItems_relates kind h).bind ?_
      intro as bs hrow
      obtain ⟨ps, rfl, rfl, hps⟩ := exists_pairs hrow
      exact finish_relates (k := .program ps) hps
    | classDecl =>
      refine (readMembers_relates kind h).bind ?_
      rintro ⟨_, _⟩ ⟨_, _⟩ ⟨hfields, hmethods⟩
      obtain ⟨fs, rfl, rfl, hfs⟩ := exists_pairs hfields
      obtain ⟨ms, rfl, rfl, hms⟩ := exists_pairs hmethods
      exact .lift_same fun name =>
        finish_relates (k := .classDecl name _ fs ms) (List.forall_mem_append.mpr ⟨hfs, hms⟩)
    | methodDecl =>
      refine (readMethod_relates kind h ⟨rfl, .nil, .nil, .nil⟩).bind fun parts parts' hparts => ?_
      obtain ⟨ps, hp, hp', hps⟩ := exists_pairs (List.forall₂_reverse_iff.mpr hparts.params)
      obtain ⟨ls, hl, hl', hls⟩ := exists_pairs (List.forall₂_reverse_iff.mpr hparts.locals)
      obtain ⟨bs, hb, hb', hbs⟩ := exists_pairs (List.forall₂_reverse_iff.mpr hparts.body)
      rw [← hp, ← hp', ← hl, ← hl', ← hb, ← hb', hparts.returnType]
      exact .lift_same fun name => finish_relates (k := .methodDecl _ ps ls bs)
        (List.forall_mem_append.mpr ⟨List.forall_mem_append.mpr ⟨hps, hls⟩, hbs⟩)
    | importDecl =>
      exact .lift_same fun path => finish_relates (k := .importDecl path) (List.forall_mem_nil _)
    | varRef =>
      exact .lift_same fun name => finish_relates (k := .varRef name) (List.forall_mem_nil _)
    | newObject =>
      exact .lift_same fun name => finish_relates (k := .newObject name) (List.forall_mem_nil _)
    | intLit =>
      exact .lift_same fun value => finish_relates (k := .intLit value) (List.forall_mem_nil _)
    | boolLit =>
      exact .lift_same fun value => finish_relates (k := .boolLit value) (List.forall_mem_nil _)
    | this => exact finish_relates (k := .this) (List.forall_mem_nil _)
    | varDecl =>
      refine .lift_same fun name => .lift fun ty ty' hty hty' => ?_
      rw [declaredType_eq h hty hty']
      exact finish_relates (k := .varDecl name ty) (List.forall_mem_nil _)
    | param =>
      refine .lift_same fun name => .lift fun ty ty' hty hty' => ?_
      rw [declaredType_eq h hty hty']
      exact finish_relates (k := .param name ty) (List.forall_mem_nil _)
    | assign =>
      exact .lift_same fun target => (child 0 0).bind fun a b hab =>
        finish_relates (k := .assign target (a, b)) (List.forall_mem_singleton.mpr hab)
    | unary =>
      exact .lift_same fun op => (child 0 0).bind fun a b hab =>
        finish_relates (k := .unary op (a, b)) (List.forall_mem_singleton.mpr hab)
    | exprStmt =>
      exact (child 0 0).bind fun a b hab =>
        finish_relates (k := .exprStmt (a, b)) (List.forall_mem_singleton.mpr hab)
    | newArray =>
      exact (child 0 0).bind fun a b hab =>
        finish_relates (k := .newArray _ (a, b)) (List.forall_mem_singleton.mpr hab)
    | arrayLength =>
      exact (child 0 0).bind fun a b hab =>
        finish_relates (k := .arrayLength (a, b)) (List.forall_mem_singleton.mpr hab)
    | paren =>
      exact (child 0 0).bind fun a b hab =>
        finish_relates (k := .paren (a, b)) (List.forall_mem_singleton.mpr hab)
    | arrayAssign =>
      exact .lift_same fun target => (child 0 0).bind fun a b hab => (child 1 1).bind fun c d hcd =>
        finish_relates (k := .arrayAssign target (a, b) (c, d)) (two hab hcd)
    | binary =>
      exact .lift_same fun op => (child 0 0).bind fun a b hab => (child 1 1).bind fun c d hcd =>
        finish_relates (k := .binary op (a, b) (c, d)) (two hab hcd)
    | whileLoop =>
      exact (child 0 0).bind fun a b hab => (child 1 1).bind fun c d hcd =>
        finish_relates (k := .whileLoop (a, b) (c, d)) (two hab hcd)
    | arrayAccess =>
      exact (child 0 0).bind fun a b hab => (child 1 1).bind fun c d hcd =>
        finish_relates (k := .arrayAccess (a, b) (c, d)) (two hab hcd)
    | returning =>
      refine (readChild?_relates h 0).bind ?_
      rintro _ _ ⟨x?, rfl, rfl, hx⟩
      exact finish_relates (k := .returning x?) fun x hmem => hx x (Option.mem_toList.mp hmem)
    | ifElse =>
      refine (child 0 0).bind fun a b hab => (child 1 1).bind fun c d hcd =>
        (readChild?_relates h 2).bind ?_
      rintro _ _ ⟨x?, rfl, rfl, hx⟩
      exact finish_relates (k := .ifElse (a, b) (c, d) x?) (List.forall_mem_cons.mpr ⟨hab,
        List.forall_mem_cons.mpr ⟨hcd, fun x hmem => hx x (Option.mem_toList.mp hmem)⟩⟩)
    | block =>
      refine (readAll_relates h).bind ?_
      intro as bs hrow
      obtain ⟨ps, rfl, rfl, hps⟩ := exists_pairs hrow
      exact finish_relates (k := .block ps) hps
    | arrayLit =>
      refine (readAll_relates h).bind ?_
      intro as bs hrow
      obtain ⟨ps, rfl, rfl, hps⟩ := exists_pairs hrow
      exact finish_relates (k := .arrayLit ps) hps
    | call =>
      refine (child 0 0).bind fun a b hab => .lift_same fun method =>
        (readAllAfter_relates h).bind ?_
      intro as bs hrow
      obtain ⟨ps, rfl, rfl, hps⟩ := exists_pairs hrow
      exact finish_relates (k := .call (a, b) method ps) (List.forall_mem_cons.mpr ⟨hab, hps⟩)

/-! ## Wrapped trees -/

/-- Only the raw node of a name is read as a name. -/
theorem eq_varRef_of_read {a : RawNode} {s u : Nat} {n : Node} (ha : a.IsExpr)
    (hn : (read a).run s = .ok (n, u)) {name : String} (hkind : n.kind = .varRef name) :
    a = RawNode.plain .varRef [("value", name)] [] := by
  have hlabel : Label.ofName? a.kind = some .varRef := by
    rw [(read_label a).of_run hn, label, hkind]
    rfl
  cases ha with
  | varRef name =>
    cases hn
    cases hkind
    rfl
  | _ => cases hlabel

end Node

open Node

variable {t : SymbolTable} {a b : RawNode}

/-- A type that is written twice, with parentheses somewhere below, is the same. -/
theorem typeExpr_eq {kind : String} {attributes : Attributes} {cs : List (RawNode × RawNode)}
    (h : ∀ x ∈ cs, ReadsLike (Says t) x.1 x.2) {ty ty' : TypeExpr}
    (hty : RawNode.typeExpr ⟨kind, attributes, cs.map Prod.fst⟩ = .ok ty)
    (hty' : RawNode.typeExpr ⟨kind, attributes, cs.map Prod.snd⟩ = .ok ty') : ty' = ty := by
  unfold RawNode.typeExpr at hty hty'
  cases harray : RawNode.isArrayKind kind with
  | false =>
    simp only [harray, Bool.false_eq_true, if_false] at hty hty'
    have hflat : RawNode.flatType ⟨kind, attributes, cs.map Prod.snd⟩ =
        RawNode.flatType ⟨kind, attributes, cs.map Prod.fst⟩ := by
      unfold RawNode.flatType
      rfl
    cases hty.symm.trans (hflat.symm.trans hty')
    rfl
  | true =>
    simp only [harray, if_true] at hty hty'
    cases cs with
    | nil => cases hty
    | cons x xs =>
      simp only [List.map_cons] at hty hty'
      split at hty
      · cases hty
      split at hty'
      · cases hty'
      have flat {r : RawNode} (hr : ¬ RawNode.isArrayKind r.kind = true) :
          r.typeExpr = r.flatType := if_neg hr
      cases he : x.1.flatType with
      | error e => rw [he] at hty; cases hty
      | ok e =>
        cases he' : x.2.flatType with
        | error e => rw [he'] at hty'; cases hty'
        | ok e' =>
          rw [he] at hty
          rw [he'] at hty'
          cases (h x List.mem_cons_self).type e e' ((flat ‹_›).trans he) ((flat ‹_›).trans he')
          cases hty.symm.trans hty'
          rfl

/-- **A raw tree with more parentheses is read like the raw tree.** -/
theorem RawNode.Wraps.readsLike (h : Wraps t a b) : ReadsLike (Says t) a b := by
  induction h with
  | node below ih => exact ⟨read_relates ih, .inl rfl, fun ty ty' => typeExpr_eq ih⟩
  | @paren a b inner isExpr notImport ih =>
    refine ⟨fun s s' n m u u' hn hm hwf => ?_, .inr rfl, fun ty ty' _ hty' => ?_⟩
    · obtain ⟨m, v, hb, hm⟩ := run_bind_eq_ok.mp hm
      cases hm
      have hexpr : n.IsExpr := by
        obtain ⟨l, hl, hsort⟩ := isExpr.exists_label
        cases hl.symm.trans ((read_label a).of_run hn)
        exact hsort
      have hpara := ih.reads s s' n m u v hn hb hwf
      exact ⟨.paren hpara.1 hexpr fun name hkind => notImport name
        (eq_varRef_of_read isExpr hn hkind), fun hn => absurd hexpr hn⟩
    · cases hty'

/-- **A program with more parentheses is read as a paraphrase of the program.** -/
theorem paraphrases_of_ofRaw? (h : a.Wraps t b) {root root' : Node} (hroot : ofRaw? a = .ok root)
    (hroot' : ofRaw? b = .ok root') (hwf : root.WellFormed) (hpart : ¬ root.IsExpr) :
    Paraphrases t .part root root' := by
  obtain ⟨u, hrun⟩ := exists_run_of_ofRaw? hroot
  obtain ⟨u', hrun'⟩ := exists_run_of_ofRaw? hroot'
  exact (h.readsLike.reads 0 0 root root' u u' hrun hrun' hwf).2 hpart

end MiniJava
