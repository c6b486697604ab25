import MiniJava.Proofs.Tree.WellFormed
import MiniJava.Proofs.Yields
import MiniJava.Tree.OfRaw

/-!
# Reading well-formed trees

A raw tree `ReadsAs S` if reading it yields a well-formed tree whose sort fulfils `S`, or fails. For
each kind of node there is a lemma that tells this of a raw node from its children. The sort follows
from the word for the kind alone (`read_label`), so the members of a class and the parts of a method
only have to be well-formed: they are sorted by their words.
-/

namespace MiniJava

open Node (read finish)

namespace RawNode

/-- If the tree can be read, it is well-formed and its root is of a certain sort. -/
def ReadsAs (S : Label → Prop) (raw : RawNode) : Prop :=
  Yields (read raw) (fun n => n.WellFormed ∧ S n.label) fun _ => True

/-- The tree reads as an expression. -/
abbrev ReadsAsExpr : RawNode → Prop := ReadsAs fun l => l.isExpression = true

/-- The tree reads as a statement. -/
abbrev ReadsAsStmt : RawNode → Prop := ReadsAs fun l => l.isStatement = true

end RawNode

namespace Node

variable {raw : RawNode} {S : Label → Prop} {k : Kind Node}

/-! ## The end of a reading -/

theorem finish_yields {P : Node → Prop} (h : ∀ i, P ⟨i, raw.position, k⟩) :
    Yields (finish raw k) P fun _ => True := fun i => h i

/-- A finished node is well-formed if its children are and fit. -/
theorem finish_wellFormed (hfits : k.Fits) (hbelow : ∀ c ∈ k.children, c.WellFormed)
    (hS : S k.label) :
    Yields (finish raw k) (fun n => n.WellFormed ∧ S n.label) fun _ => True :=
  finish_yields fun _ => ⟨.intro hfits hbelow, hS⟩

/-- A finished node whose kind has places for expressions only. -/
theorem finish_exprs (hfits : (∀ c ∈ k.children, c.IsExpr) → k.Fits)
    (h : ∀ c ∈ k.children, c.WellFormed ∧ c.IsExpr) (hS : S k.label) :
    Yields (finish raw k) (fun n => n.WellFormed ∧ S n.label) fun _ => True :=
  finish_wellFormed (hfits fun c hc => (h c hc).2) (fun c hc => (h c hc).1) hS

/-- The word for a kind tells the sort of the node. -/
theorem read_label (raw : RawNode) :
    Yields (read raw) (fun n => Label.ofName? raw.kind = some n.label) fun _ => True := by
  obtain ⟨kind, attributes, children⟩ := raw
  unfold read
  cases h : Label.ofName? kind with
  | none => exact .throw trivial
  | some l =>
    cases l <;> simp only <;>
      repeat (first | exact finish_yields fun _ => rfl | (refine Yields.seq fun _ => ?_))

/-! ## Rows of children -/

variable {raws : List RawNode}

theorem readAll_yields (h : ∀ r ∈ raws, r.ReadsAs S) :
    Yields (readAll raws) (fun ns => ∀ n ∈ ns, n.WellFormed ∧ S n.label) fun _ => True := by
  induction raws with
  | nil => exact .pure fun _ h => nomatch h
  | cons r rs ih =>
    unfold readAll
    refine (h r List.mem_cons_self).bind fun n hn => ?_
    refine (ih fun r' hr' => h r' (List.mem_cons_of_mem r hr')).bind fun ns hns => ?_
    exact .pure (List.forall_mem_cons.mpr ⟨hn, hns⟩)

/-- A raw node reads as a well-formed tree whose sort its word tells. -/
theorem read_yields_label (h : raw.ReadsAs S) {l : Label} (hl : raw.kind = l.name) :
    Yields (read raw) (fun n => n.WellFormed ∧ n.label = l) fun _ => True := by
  intro s
  have hwf := h s
  have hlabel := read_label raw s
  split <;> rename_i hr <;> simp only [hr, hl, Label.ofName?_name, Option.some.injEq] at hwf hlabel
  · exact ⟨hwf.1, hlabel.symm⟩
  · exact trivial

/-- Imports and classes. -/
theorem readItems_yields (kind : String) (h : ∀ r ∈ raws, r.ReadsAs fun _ => True) :
    Yields (readItems kind raws)
      (fun ns => ∀ n ∈ ns, n.WellFormed ∧ (n.label = .importDecl ∨ n.label = .classDecl))
      fun _ => True := by
  induction raws with
  | nil => exact .pure fun _ h => nomatch h
  | cons r rs ih =>
    have ih := ih fun r' hr' => h r' (List.mem_cons_of_mem r hr')
    have hr := h r List.mem_cons_self
    unfold readItems
    by_cases hkind : (r.kind != "ImportDeclaration" && r.kind != "ClassDecl") = true
    · simp only [hkind, if_true]
      exact .throw trivial
    · simp only [hkind]
      have hn : Yields (read r)
          (fun n => n.WellFormed ∧ (n.label = .importDecl ∨ n.label = .classDecl))
          fun _ => True := by
        simp only [bne_iff_ne, Bool.and_eq_true, not_and, ne_eq, not_not] at hkind
        by_cases himport : r.kind = "ImportDeclaration"
        · exact (read_yields_label (l := .importDecl) hr himport).mono fun n hn =>
            ⟨hn.1, .inl hn.2⟩
        · exact (read_yields_label (l := .classDecl) hr (hkind himport)).mono fun n hn =>
            ⟨hn.1, .inr hn.2⟩
      refine hn.bind fun n hn => ih.bind fun ns hns => ?_
      exact .pure (List.forall_mem_cons.mpr ⟨hn, hns⟩)

/-- The fields and methods of a class. -/
theorem readMembers_yields (kind : String) (h : ∀ r ∈ raws, r.ReadsAs fun _ => True) :
    Yields (readMembers kind raws)
      (fun (fields, methods) =>
        (∀ n ∈ fields, n.WellFormed ∧ n.label = .varDecl) ∧
          ∀ n ∈ methods, n.WellFormed ∧ n.label = .methodDecl)
      fun _ => True := by
  induction raws with
  | nil => exact .pure ⟨fun _ h => (nomatch h), fun _ h => nomatch h⟩
  | cons r rs ih =>
    have ih := ih fun r' hr' => h r' (List.mem_cons_of_mem r hr')
    have hr := h r List.mem_cons_self
    unfold readMembers
    by_cases hfield : (r.kind == "VarDecl") = true
    · simp only [hfield, if_true]
      refine (read_yields_label (l := .varDecl) hr (beq_iff_eq.mp hfield)).bind fun n hn => ?_
      refine ih.bind fun (fields, methods) ⟨hfields, hmethods⟩ => .pure ?_
      exact ⟨List.forall_mem_cons.mpr ⟨hn, hfields⟩, hmethods⟩
    · by_cases hmethod : (r.kind == "MethodDecl") = true
      · simp only [hfield, hmethod, if_true]
        refine (read_yields_label (l := .methodDecl) hr (beq_iff_eq.mp hmethod)).bind fun n hn => ?_
        refine ih.bind fun (fields, methods) ⟨hfields, hmethods⟩ => .pure ?_
        exact ⟨hfields, List.forall_mem_cons.mpr ⟨hn, hmethods⟩⟩
      · simp only [hfield, hmethod]
        exact .throw trivial

/-- What has been read of a method fits. -/
def MethodParts.Fit (parts : MethodParts) : Prop :=
  (∀ n ∈ parts.params, n.WellFormed ∧ n.label = .param) ∧
    (∀ n ∈ parts.locals, n.WellFormed ∧ n.label = .varDecl) ∧
    ∀ n ∈ parts.body, n.WellFormed ∧ n.IsStmt

/-- The parts of a method. Written types are not read as trees of their own. -/
theorem readMethod_yields (kind : String) {parts : MethodParts} (hparts : parts.Fit)
    (h : ∀ r ∈ raws, RawNode.isTypeKind r.kind = true ∨ r.ReadsAs fun _ => True) :
    Yields (readMethod kind raws parts) MethodParts.Fit fun _ => True := by
  induction raws generalizing parts with
  | nil => exact .pure hparts
  | cons r rs ih =>
    have ih {parts : MethodParts} (hparts : parts.Fit) :=
      ih hparts fun r' hr' => h r' (List.mem_cons_of_mem r hr')
    obtain ⟨hparams, hlocals, hbody⟩ := hparts
    have hr := h r List.mem_cons_self
    unfold readMethod
    by_cases htype : RawNode.isTypeKind r.kind = true
    · simp only [htype, if_true]
      split
      · exact .seq fun _ => .seq fun _ => ih ⟨hparams, hlocals, hbody⟩
      · exact .seq fun _ => ih ⟨hparams, hlocals, hbody⟩
    have hr := hr.resolve_left htype
    by_cases hparam : (r.kind == "Param") = true
    · simp only [htype, hparam, if_true]
      refine (read_yields_label (l := .param) hr (beq_iff_eq.mp hparam)).bind fun n hn => ?_
      exact ih ⟨List.forall_mem_cons.mpr ⟨hn, hparams⟩, hlocals, hbody⟩
    by_cases hlocal : (r.kind == "VarDecl") = true
    · simp only [htype, hparam, hlocal, if_true]
      refine (read_yields_label (l := .varDecl) hr (beq_iff_eq.mp hlocal)).bind fun n hn => ?_
      exact ih ⟨hparams, List.forall_mem_cons.mpr ⟨hn, hlocals⟩, hbody⟩
    by_cases hstmt : ((Label.ofName? r.kind).map Label.isStatement).getD false = true
    · simp only [htype, hparam, hlocal, hstmt, if_true]
      have hn : Yields (read r) (fun n => n.WellFormed ∧ n.IsStmt) fun _ => True := by
        intro s
        have hwf := hr s
        have hlabel := read_label r s
        split <;> rename_i hs <;> simp only [hs] at hwf hlabel
        · simp only [hlabel, Option.map_some, Option.getD_some] at hstmt
          exact ⟨hwf.1, hstmt⟩
        · exact trivial
      refine hn.bind fun n hn => ?_
      exact ih ⟨hparams, hlocals, List.forall_mem_cons.mpr ⟨hn, hbody⟩⟩
    · simp only [htype, hparam, hlocal, hstmt]
      exact .throw trivial

end Node

end MiniJava
