import MiniJava.Proofs.Lowering.Paths

/-!
# Where jumps land

A jump needs an instruction at its label, so labels at the end of the code of a method are no place
to jump to. The code for a conditional ends with a label, and the jump to it is left out behind a
case that ends with a return. It is not left out behind a case that ends with a conditional, although
no execution comes there. So a method with a result has a jump to its end exactly if its last
statement is a conditional that has such a case for `else`, or has one like that for its first case
(`jumpsLand_iff_of_lower`).
-/

namespace MiniJava

open Ir

/-! ## Statements that end so -/

mutual

/-- The statement is a `return`, or a block that ends with one. -/
def Node.endsInReturn : Node → Bool
  | ⟨_, _, .returning _⟩ => true
  | ⟨_, _, .block statements⟩ => lastEndsInReturn statements
  | _ => false
termination_by structural n => n

/-- The last of these statements is a `return`, or a block that ends with one. -/
def lastEndsInReturn : List Node → Bool
  | [] => false
  | [n] => n.endsInReturn
  | _ :: n :: ns => lastEndsInReturn (n :: ns)
termination_by structural ns => ns

end

mutual

/-- The statement is a conditional whose case for `else` does not end with a `return`, or whose first
case is of this kind, or a block that ends with a statement of this kind. -/
def Node.endsInElseIf : Node → Bool
  | ⟨_, _, .ifElse _ thenBranch (some elseBranch)⟩ =>
    !elseBranch.endsInReturn || thenBranch.endsInElseIf
  | ⟨_, _, .block statements⟩ => lastEndsInElseIf statements
  | _ => false
termination_by structural n => n

/-- The last of these statements is a conditional with such a case, or a block that ends with one. -/
def lastEndsInElseIf : List Node → Bool
  | [] => false
  | [n] => n.endsInElseIf
  | _ :: n :: ns => lastEndsInElseIf (n :: ns)
termination_by structural ns => ns

end

namespace Ir

/-- Behind each label to which the code jumps there is an instruction that is no label. -/
def Method.JumpsLand (m : Method) : Prop :=
  ∀ l ∈ targets m.code, ∃ rest, .label l :: rest <:+ m.code ∧ ∃ i ∈ rest, i.label? = none

/-! ## Labels at the end -/

/-- The label is in the code, and behind it there are only labels. -/
def AtEnd (code : Code) (l : String) : Prop :=
  ∃ rest, .label l :: rest <:+ code ∧ ∀ i ∈ rest, i.label? ≠ none

variable {p q code : Code} {i : Instr} {l l' : String}

theorem AtEnd.mem_labels (h : AtEnd p l) : l ∈ labels p := by
  obtain ⟨rest, hrest, -⟩ := h
  exact List.mem_filterMap.mpr ⟨.label l, hrest.subset List.mem_cons_self, rfl⟩

/-- Where an instruction stands behind, no label is at the end. -/
theorem atEnd_append (hq : ∃ i ∈ q, i.label? = none) : AtEnd (p ++ q) l ↔ AtEnd q l := by
  constructor
  · rintro ⟨rest, hrest, hlabels⟩
    refine ⟨rest, ?_, hlabels⟩
    rcases List.suffix_or_suffix_of_suffix hrest (List.suffix_append p q) with h | h
    · exact h
    · obtain ⟨i, hi, hnone⟩ := hq
      rcases List.mem_cons.mp (h.subset hi) with rfl | hi
      · cases hnone
      · exact absurd hnone (hlabels i hi)
  · rintro ⟨rest, hrest, hlabels⟩
    exact ⟨rest, hrest.trans (List.suffix_append p q), hlabels⟩

theorem atEnd_concat_label : AtEnd (p ++ [.label l']) l ↔ l = l' ∨ AtEnd p l := by
  constructor
  · rintro ⟨rest, ⟨front, hfront⟩, hlabels⟩
    induction rest using List.reverseRecOn with
    | nil =>
      obtain ⟨-, h⟩ := List.append_inj' hfront rfl
      simp_all
    | append_singleton rest i =>
      rw [← List.cons_append, ← List.append_assoc] at hfront
      obtain ⟨rfl, -⟩ := List.append_inj' hfront rfl
      exact .inr ⟨rest, List.suffix_append front _, fun j hj => hlabels j (by simp [hj])⟩
  · rintro (rfl | ⟨rest, ⟨front, rfl⟩, hlabels⟩)
    · exact ⟨[], List.suffix_append p _, by simp⟩
    · refine ⟨rest ++ [.label l'], ⟨front, by simp⟩, fun j hj => ?_⟩
      rcases List.mem_append.mp hj with hj | hj
      · exact hlabels j hj
      · obtain rfl := List.mem_singleton.mp hj
        exact Option.some_ne_none _

/-- Where the labels differ, a jump lands unless its label is at the end. -/
theorem Method.jumpsLand_iff {m : Method} (hregular : Regular m.code)
    (hnodup : (labels m.code).Nodup) : m.JumpsLand ↔ ∀ l ∈ targets m.code, ¬AtEnd m.code l := by
  constructor
  · rintro h l hl ⟨rest, hrest, hlabels⟩
    obtain ⟨rest', hrest', i, hi, hnone⟩ := h l hl
    have hplace := ControlFlow.place_unique (F := controlFlow) hnodup
      (l := l) rfl rfl hrest hrest'
    cases hplace
    exact hlabels i hi hnone
  · intro h l hl
    obtain ⟨j, rest, hj, hrest⟩ :=
      ControlFlow.exists_place (F := controlFlow) (hregular.closed hl)
    cases j <;> cases hj
    refine ⟨rest, hrest, ?_⟩
    by_contra hnone
    exact h l hl ⟨rest, hrest, fun i hi hi' => hnone ⟨i, hi, hi'⟩⟩

/-! ## Code that ends so -/

/-- How the code for a statement that always returns ends: with a return or with a label, to which
there may be a jump. -/
structure EndsAs (returns elseIf : Bool) (code : Code) : Prop where
  nonempty : ∃ i ∈ code, i.label? = none
  ends : endsInJump code = returns
  jumps : (labels code).Nodup → ((∃ l ∈ targets code, AtEnd code l) ↔ elseIf = true)

namespace EndsAs

variable {r r' e e' : Bool}

theorem ne_nil (h : EndsAs r e p) : p ≠ [] := by
  obtain ⟨i, hi, -⟩ := h.nonempty
  exact List.ne_nil_of_mem hi

/-- What stands in front does not matter. -/
theorem append (hp : Regular p) (hq : EndsAs r e q) : EndsAs r e (p ++ q) := by
  refine ⟨hq.nonempty.imp fun i hi => ⟨List.mem_append_right p hi.1, hi.2⟩, ?_, fun hnodup => ?_⟩
  · rw [endsInJump_append p hq.ne_nil, hq.ends]
  · rw [labels_append, List.nodup_append] at hnodup
    obtain ⟨-, hnodup, hdisjoint⟩ := hnodup
    rw [← hq.jumps hnodup]
    refine exists_congr fun l => ?_
    rw [atEnd_append hq.nonempty, targets_append, List.mem_append]
    refine and_congr_left fun hend => or_iff_right fun hl => ?_
    exact hdisjoint l (hp.closed hl) l hend.mem_labels rfl

theorem ret (o : Option Operand) : EndsAs true false [.ret o] := by
  refine ⟨⟨.ret o, by simp, rfl⟩, rfl, fun _ => ?_⟩
  simp [Instr.target?]

/-- Two cases. The jump behind the first one is left out if that ends with a return. -/
theorem fork {o : Operand} (hp : EndsAs r e p) (hq : EndsAs r' e' q) (hpr : Regular p)
    (hqr : Regular q) :
    EndsAs false (!r || e') (.branch o l :: (p ++ if endsInJump p then
      .label l :: (q ++ [.label l']) else .goto l' :: .label l :: (q ++ [.label l']))) := by
  have hend : ∃ i ∈ q, i.label? = none := hq.nonempty
  generalize hcode : (Instr.branch o l :: (p ++ if endsInJump p then
    .label l :: (q ++ [.label l']) else .goto l' :: .label l :: (q ++ [.label l']))) = code
  have hsplit : ∃ front, code = front ++ q ++ [.label l'] := by
    subst hcode
    split
    · exact ⟨.branch o l :: (p ++ [.label l]), by simp⟩
    · exact ⟨.branch o l :: (p ++ [.goto l', .label l]), by simp⟩
  obtain ⟨front, hfront⟩ := hsplit
  have hatEnd (k : String) : AtEnd code k ↔ k = l' ∨ AtEnd q k := by
    rw [hfront, atEnd_concat_label, atEnd_append hend]
  have htargets (k : String) : k ∈ targets code ↔
      k = l ∨ k ∈ targets p ∨ (r = false ∧ k = l') ∨ k ∈ targets q := by
    subst hcode
    rw [hp.ends]
    cases r <;> simp [Instr.target?]
  have hlabels : labels code = labels p ++ l :: (labels q ++ [l']) := by
    subst hcode
    split <;> simp [Instr.label?]
  refine ⟨⟨.branch o l, ?_, rfl⟩, ?_, fun hnodup => ?_⟩
  · subst hcode
    exact List.mem_cons_self
  · rw [hfront]
    exact endsInJump_concat _ _
  · rw [hlabels] at hnodup
    have hq' := hq.jumps ((((List.nodup_append.mp hnodup).2.1).of_cons).sublist
      (List.sublist_append_left _ _))
    have hpl (k : String) (hk : k ∈ targets p) := hpr.closed hk
    have hql (k : String) (hk : k ∈ targets q) := hqr.closed hk
    have hqe (k : String) (hk : AtEnd q k) := hk.mem_labels
    simp only [hatEnd, htargets, Bool.or_eq_true, Bool.not_eq_true', ← hq']
    grind

end EndsAs

end Ir

namespace Scope

variable (sc : Scope)

theorem lowerStmts_endsAs {ns : List Node}
    (h : ∀ n ∈ ns, n.alwaysReturns = true →
      Yields (sc.lowerStmt n) (EndsAs n.endsInReturn n.endsInElseIf) fun _ => True)
    (hns : lastReturns ns = true) :
    Yields (sc.lowerStmts ns) (EndsAs (lastEndsInReturn ns) (lastEndsInElseIf ns))
      fun _ => True := by
  induction ns with
  | nil => cases hns
  | cons n ns ih =>
    cases ns with
    | nil =>
      refine (h n List.mem_cons_self hns).bind fun p hp => ?_
      refine (Yields.pure (P := (· = [])) rfl).bind fun q hq => .pure ?_
      subst hq
      rwa [List.append_nil]
    | cons m ms =>
      have hlast := ih (fun c hc => h c (List.mem_cons_of_mem n hc)) hns
      exact (sc.lowerStmt_regular n).bind fun p hp => hlast.bind fun q hq => .pure (hq.append hp)

/-- How the code for a statement that always returns ends. -/
theorem lowerStmt_endsAs (n : Node) (hn : n.alwaysReturns = true) :
    Yields (sc.lowerStmt n) (EndsAs n.endsInReturn n.endsInElseIf) fun _ => True := by
  induction n using Node.induction with
  | step n ih =>
    obtain ⟨i, p, k⟩ := n
    cases k with
    | returning value =>
      cases value with
      | none => exact .pure (.ret none)
      | some value =>
        exact (sc.lowerExpr_regular value _).bind fun v hv => .pure ((EndsAs.ret _).append hv)
    | ifElse c thenBranch elseBranch =>
      cases elseBranch with
      | none => cases hn
      | some elseBranch =>
        obtain ⟨hthen, helse⟩ : thenBranch.alwaysReturns = true ∧ elseBranch.alwaysReturns = true := by
          simpa [Node.alwaysReturns] using hn
        have hthen := ih thenBranch (by simp [Node.children, Kind.children]) hthen
        have helse := ih elseBranch (by simp [Node.children, Kind.children]) helse
        refine .seq fun k => (sc.lowerExpr_regular c _).bind fun v hv => ?_
        refine (helse.and (sc.lowerStmt_regular elseBranch)).bind fun elseCode he => ?_
        refine (hthen.and (sc.lowerStmt_regular thenBranch)).bind fun thenCode ht => .pure ?_
        simp only [List.append_assoc, List.cons_append, List.nil_append]
        rw [closeWith_cons_append _ _ _ _ rfl]
        exact (he.1.fork ht.1 he.2 ht.2).append hv
    | block statements => exact sc.lowerStmts_endsAs (fun c hc hc' => ih c hc hc') hn
    | _ => cases hn

end Scope

/-! ## Methods -/

variable {source : String} {root : Node} {table : SymbolTable} {unit : ClassUnit}

/-- Of a method without result, all jumps land in front of the return at its end. -/
theorem Ir.Method.jumpsLand_of_ret {m : Method} (hregular : Regular m.code)
    (hnodup : (labels m.code).Nodup) {front : Code} {o : Option Operand}
    (hm : m.code = front ++ [.ret o]) : m.JumpsLand := by
  refine (Method.jumpsLand_iff hregular hnodup).mpr fun l _ hend => ?_
  rw [hm, atEnd_append ⟨.ret o, by simp, rfl⟩] at hend
  simpa [Instr.label?] using hend.mem_labels

/-- **All jumps of a method land on instructions if it has no result, or if its last statement is not
a conditional that has a conditional for `else`; and else some do not.** -/
theorem jumpsLand_iff_of_lower (h : Accepted source root table) (hlower : lower table root = .ok unit) :
    List.Forall₂ (fun n m => ∃ head params locals body,
      n.kind = .methodDecl head params locals body ∧
        (m.JumpsLand ↔ m.returnType = .void ∨ lastEndsInElseIf body = false))
      root.methods unit.methods := by
  have hmethods := (List.forall₂_and_left _ _).mpr ⟨fun n hn => hn, forall₂_lowerMethod hlower⟩
  refine hmethods.imp fun n m ⟨hn, s, s', hs, hrun⟩ => ?_
  have hnodup := nodup_labels_of_lowerMethod hs hrun
  obtain ⟨head, params, locals, body, code, hkind, hcode, hresult, hregular, -, hbody⟩ :=
    lowerMethod_shape hrun
  refine ⟨head, params, locals, body, hkind, ?_⟩
  rcases hbody with ⟨hvoid, front, o, hm⟩ | ⟨hvalue, rfl⟩
  · exact iff_of_true (Method.jumpsLand_of_ret hregular hnodup hm) (.inl hvoid)
  · have hreturns : lastReturns body = true := by
      have happroves := h.approves_of_mem_preorder (Node.mem_preorder_of_mem_methods hn).1 hkind
      refine happroves.lastReturns hkind fun hvoid => hvalue ?_
      rw [hresult, hvoid]
      rfl
    have hends := (Scope.lowerStmts_endsAs _ (fun c _ => Scope.lowerStmt_endsAs _ c)
      hreturns).of_run hcode
    rw [Method.jumpsLand_iff hregular hnodup, or_iff_right hvalue, ← Bool.not_eq_true,
      ← hends.jumps hnodup]
    simp

/-- The code of two cases that return. -/
theorem jumpsLand_iff_of_lower_cases : ∃ root table unit,
    Accepted "class A{int f(boolean b){if(b)return 1;else return 2;}}" root table ∧
      lower table root = .ok unit ∧ List.Forall₂ (fun n m => ∃ head params locals body,
        n.kind = .methodDecl head params locals body ∧
          (m.JumpsLand ↔ m.returnType = .void ∨ lastEndsInElseIf body = false))
        root.methods unit.methods := by
  obtain ⟨root, table, h, hp⟩ := Accepted.exists_of_any
    "class A{int f(boolean b){if(b)return 1;else return 2;}}"
    (fun root table => (lower table root).isOk) (by decide +kernel)
  cases hlower : lower table root with
  | error e => simp [hlower, Except.isOk, Except.toBool] at hp
  | ok unit => exact ⟨root, table, unit, h, hlower, jumpsLand_iff_of_lower h hlower⟩

/-- The jump behind the inner conditional goes to the end of the method. -/
theorem not_jumpsLand_elseIf : ∃ root table unit m,
    Accepted "class A{int f(boolean a,boolean b){if(a)return 1;else if(b)return 2;else return 3;}}"
      root table ∧ lower table root = .ok unit ∧ m ∈ unit.methods ∧ ¬m.JumpsLand := by
  obtain ⟨root, table, h, hp⟩ := Accepted.exists_of_any
    "class A{int f(boolean a,boolean b){if(a)return 1;else if(b)return 2;else return 3;}}"
    (fun root table => match lower table root with
      | .ok unit => unit.methods.any fun m => decide (m.code.getLast? = some (.label "if_end_0") ∧
        "if_end_0" ∈ targets m.code ∧ (labels m.code).Nodup)
      | .error _ => false)
    (by decide +kernel)
  split at hp
  · rename_i unit hlower
    obtain ⟨m, hm, hp⟩ := List.any_eq_true.mp hp
    obtain ⟨hlast, htarget, hnodup⟩ := of_decide_eq_true hp
    obtain ⟨front, hfront⟩ := List.getLast?_eq_some_iff.mp hlast
    refine ⟨root, table, unit, m, h, hlower, hm, fun hland => ?_⟩
    have hland := (Method.jumpsLand_iff (regular_of_lower hlower hm) hnodup).mp hland
    refine hland "if_end_0" htarget ?_
    rw [hfront, atEnd_concat_label]
    exact .inl rfl
  · cases hp

end MiniJava
