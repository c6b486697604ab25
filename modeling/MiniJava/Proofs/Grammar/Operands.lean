import MiniJava.Proofs.Grammar.Phrases

/-!
# Operands

The grammar reads an operand as a row: operands with operators of one strength between each two, any
number of `!` in front of a selection, an atom with selectors behind it. Here is the tree that each
row stands for (`grouped`, `negated`, `selected`), how it is written, that it is in grammar shape,
and that every tree in grammar shape comes about so.
-/

namespace MiniJava.Grammar

open RawNode
open Token (enclosed commaSeparated)

/-! ## Operations -/

/-- How the text of an operator is written. -/
def operatorTokens (o : String) : List Token :=
  (BinaryOp.ofSymbol? o).toList.map fun op => .punct op.punct

@[simp] theorem operatorTokens_symbol (op : BinaryOp) :
    operatorTokens op.symbol = [.punct op.punct] := by
  rw [operatorTokens, BinaryOp.ofSymbol?_symbol]
  rfl

/-- The text of an operator that binds this tightly. -/
def IsOperator (k : Nat) (o : String) : Prop := ∃ op : BinaryOp, o = op.symbol ∧ op.strength = k

/-- Operands with operators between each two, grouped from the left. -/
def grouped (first : RawNode) (rest : List (String × RawNode)) : RawNode :=
  rest.foldl (fun l r => plain .binary [("op", r.1)] [l, r.2]) first

/-- How operators with the operands behind them are written. -/
def operationTokens (rest : List (String × RawNode)) : List Token :=
  rest.flatMap fun r => operatorTokens r.1 ++ r.2.tokens

/-- Operators of strength `k` with operands that bind more tightly. -/
def AreOperations (k : Nat) (rest : List (String × RawNode)) : Prop :=
  ∀ r ∈ rest, IsOperator k r.1 ∧ r.2.IsOperand (k + 1)

theorem unplaced_foldl_binary (first : RawNode) (rest : List (String × RawNode)) :
    (rest.foldl (fun l r => l.inheritOffset "BinaryExpr" [("op", r.1)] [l, r.2]) first).unplaced =
      grouped first.unplaced (rest.map fun r => (r.1, r.2.unplaced)) := by
  rw [grouped, List.foldl_map]
  refine (List.foldl_hom unplaced fun n r => ?_).symm
  exact (unplaced_place _ _ [("op", r.1)] (by simp [isLasting]) [n, r.2]).symm

theorem tokens_grouped {k : Nat} {first : RawNode} {rest : List (String × RawNode)}
    (h : AreOperations k rest) :
    (grouped first rest).tokens = first.tokens ++ operationTokens rest := by
  induction rest generalizing first with
  | nil => simp [grouped, operationTokens]
  | cons r rest ih =>
    obtain ⟨o, n⟩ := r
    obtain ⟨⟨⟨op, rfl, -⟩, -⟩, hrest⟩ := List.forall_mem_cons.mp h
    change (grouped (plain .binary [("op", op.symbol)] [first, n]) rest).tokens = _
    rw [ih hrest, tokens_binary]
    simp [operationTokens]

theorem isOperand_grouped {k : Nat} {first : RawNode} {rest : List (String × RawNode)}
    (hfirst : first.IsOperand k) (h : AreOperations k rest) : (grouped first rest).IsOperand k := by
  induction rest generalizing first with
  | nil => exact hfirst
  | cons r rest ih =>
    obtain ⟨o, n⟩ := r
    obtain ⟨⟨⟨op, rfl, rfl⟩, hn⟩, hrest⟩ := List.forall_mem_cons.mp h
    have hstrength := Nat.le_of_eq (strength_binary op [first, n]).symm
    exact ih ⟨.binary op hfirst.1 hn.1 hfirst.2 hn.2, hstrength⟩ hrest

/-- An operand that may be an operation of strength `k` is a row of operands that bind more tightly
than that. -/
theorem exists_eq_grouped {n : RawNode} {k : Nat} (hn : n.IsExpr) (hstrong : k ≤ n.strength)
    (hk : k ≤ 6) :
    ∃ first rest, first.IsOperand (k + 1) ∧ AreOperations k rest ∧ n = grouped first rest := by
  have alone {n : RawNode} (hn : n.IsExpr) (hlt : k < n.strength) :
      ∃ first rest, first.IsOperand (k + 1) ∧ AreOperations k rest ∧ n = grouped first rest :=
    ⟨n, [], ⟨hn, hlt⟩, fun _ h => (nomatch h), rfl⟩
  have hn' := hn
  induction hn with
  | @binary left right op _ hright hleft hlt ih =>
    rw [strength_binary] at hstrong
    rcases Nat.lt_or_eq_of_le hstrong with hop | rfl
    · exact alone hn' (by rwa [strength_binary])
    · obtain ⟨first, rest, hfirst, hrest, rfl⟩ := ih hleft ‹_›
      refine ⟨first, rest ++ [(op.symbol, right)], hfirst, ?_, ?_⟩
      · exact List.forall_mem_append.mpr
          ⟨hrest, List.forall_mem_singleton.mpr ⟨⟨op, rfl, rfl⟩, hright, hlt⟩⟩
      · simp [grouped]
  | _ => exact alone hn' (Nat.lt_of_le_of_lt hk (six_lt_strength (by decide) _ _))

/-! ## Negations -/

/-- An operand with this many `!` in front. -/
def negated : Nat → RawNode → RawNode
  | 0, operand => operand
  | n + 1, operand => plain .unary [("op", "!")] [negated n operand]

theorem unplaced_foldr_unary (starts : List Nat) (operand : RawNode) :
    (starts.foldr (fun start e => atOffset start "UnaryExpr" [("op", "!")] [e]) operand).unplaced =
      negated starts.length operand.unplaced := by
  induction starts with
  | nil => rfl
  | cons start starts ih =>
    rw [List.length_cons, negated, ← ih]
    exact unplaced_place _ _ [("op", "!")] (by simp [isLasting]) _

theorem tokens_negated (count : Nat) (operand : RawNode) :
    (negated count operand).tokens = List.replicate count (.punct .bang) ++ operand.tokens := by
  induction count with
  | zero => rfl
  | succ count ih => rw [negated, tokens_unary, ih, List.replicate_succ, List.cons_append]

theorem isOperand_negated {operand : RawNode} (h : operand.IsOperand 7) (count : Nat) :
    (negated count operand).IsOperand 7 := by
  induction count with
  | zero => exact h
  | succ count ih => exact ⟨.unary ih.1 ih.2, Nat.le_refl 7⟩

/-- A negation is a selection with any number of `!` in front. -/
theorem exists_eq_negated {n : RawNode} (hn : n.IsExpr) (hstrong : 7 ≤ n.strength) :
    ∃ count operand, operand.IsOperand 8 ∧ n = negated count operand := by
  have hn' := hn
  induction hn with
  | unary _ hinner ih =>
    obtain ⟨count, operand, hoperand, rfl⟩ := ih hinner ‹_›
    exact ⟨count + 1, operand, hoperand, rfl⟩
  | binary op =>
    rw [strength_binary] at hstrong
    have := op.strength_le
    omega
  | intLit | boolLit | this | varRef | newObject | newArray | arrayLit | paren =>
    exact ⟨0, _, ⟨hn', (by decide : 8 ≤ 9)⟩, rfl⟩
  | arrayAccess | arrayLength | call => exact ⟨0, _, ⟨hn', Nat.le_refl 8⟩, rfl⟩

/-! ## Selections -/

namespace Selector

/-- The selector without positions. -/
def unplaced : Selector → Selector
  | index e => index e.unplaced
  | length => length
  | call method arguments => call method (arguments.map RawNode.unplaced)

/-- How a selector is written. -/
def tokens : Selector → List Token
  | index e => enclosed .openBracket .closeBracket e.tokens
  | length => [.punct .dot, .ident "length"]
  | call method arguments =>
    .punct .dot :: .ident method ::
      enclosed .openParen .closeParen (commaSeparated (arguments.map RawNode.tokens))

/-- A selector in grammar shape. -/
inductive IsShaped : Selector → Prop
  | index {e : RawNode} (h : e.IsExpr) : IsShaped (index e)
  | length : IsShaped length
  | call {arguments : List RawNode} (method : String) (h : ∀ a ∈ arguments, a.IsExpr) :
    IsShaped (call method arguments)

/-- An operand with a selector behind it. -/
def onto (operand : RawNode) : Selector → RawNode
  | index e => plain .arrayAccess [] [operand, e]
  | length => plain .arrayLength [("value", "length")] [operand]
  | call method arguments => plain .call [("value", method)] (operand :: arguments)

theorem unplaced_apply (operand : RawNode) (s : Selector) :
    (apply operand s).unplaced = onto operand.unplaced s.unplaced := by
  cases s with
  | index e => exact unplaced_place _ _ [] (by simp) _
  | length => exact unplaced_place _ _ _ (by simp [isLasting]) _
  | call method arguments => exact unplaced_place _ _ [("value", method)] (by simp [isLasting]) _

theorem tokens_onto (operand : RawNode) (s : Selector) :
    (onto operand s).tokens = operand.tokens ++ s.tokens := by
  cases s <;> simp [onto, tokens]

theorem isOperand_onto {operand : RawNode} {s : Selector} (h : operand.IsOperand 8)
    (hs : s.IsShaped) : (onto operand s).IsOperand 8 := by
  cases hs with
  | index he => exact ⟨.arrayAccess h.1 h.2 he, Nat.le_refl 8⟩
  | length => exact ⟨.arrayLength h.1 h.2, Nat.le_refl 8⟩
  | call method hargs => exact ⟨.call method h.1 h.2 hargs, Nat.le_refl 8⟩

end Selector

/-- An operand with selectors, one behind the other. -/
def selected (operand : RawNode) (selectors : List Selector) : RawNode :=
  selectors.foldl Selector.onto operand

theorem unplaced_foldl_apply (operand : RawNode) (ss : List Selector) :
    (ss.foldl Selector.apply operand).unplaced =
      selected operand.unplaced (ss.map Selector.unplaced) := by
  rw [selected, List.foldl_map]
  exact (List.foldl_hom unplaced fun n s => (Selector.unplaced_apply n s).symm).symm

theorem tokens_selected (operand : RawNode) (ss : List Selector) :
    (selected operand ss).tokens = operand.tokens ++ ss.flatMap Selector.tokens := by
  induction ss generalizing operand with
  | nil => simp [selected]
  | cons s ss ih =>
    change (selected (Selector.onto operand s) ss).tokens = _
    rw [ih, Selector.tokens_onto, List.flatMap_cons, List.append_assoc]

theorem isOperand_selected {operand : RawNode} {ss : List Selector} (h : operand.IsOperand 8)
    (hss : ∀ s ∈ ss, s.IsShaped) : (selected operand ss).IsOperand 8 := by
  induction ss generalizing operand with
  | nil => exact h
  | cons s ss ih =>
    obtain ⟨hs, hss⟩ := List.forall_mem_cons.mp hss
    exact ih (Selector.isOperand_onto h hs) hss

theorem selected_concat (operand : RawNode) (ss : List Selector) (s : Selector) :
    selected operand (ss ++ [s]) = Selector.onto (selected operand ss) s := by
  simp [selected]

/-- A selection is an atom with selectors. -/
theorem exists_eq_selected {n : RawNode} (hn : n.IsExpr) (hstrong : 8 ≤ n.strength) :
    ∃ operand ss, operand.IsOperand 9 ∧ (∀ s ∈ ss, s.IsShaped) ∧ n = selected operand ss := by
  have atom {n : RawNode} (hn : n.IsOperand 9) :
      ∃ operand ss, operand.IsOperand 9 ∧ (∀ s ∈ ss, s.IsShaped) ∧ n = selected operand ss :=
    ⟨n, [], hn, fun _ h => (nomatch h), rfl⟩
  have more {n : RawNode} {s : Selector} (hs : s.IsShaped)
      (h : ∃ operand ss, operand.IsOperand 9 ∧ (∀ s ∈ ss, s.IsShaped) ∧ n = selected operand ss) :
      ∃ operand ss, operand.IsOperand 9 ∧ (∀ s ∈ ss, s.IsShaped) ∧
        Selector.onto n s = selected operand ss := by
    obtain ⟨operand, ss, hoperand, hss, rfl⟩ := h
    refine ⟨operand, ss ++ [s], hoperand, ?_, (selected_concat operand ss s).symm⟩
    exact List.forall_mem_append.mpr ⟨hss, List.forall_mem_singleton.mpr hs⟩
  induction hn with
  | intLit digits => exact atom ⟨.intLit digits, Nat.le_refl 9⟩
  | boolLit b => exact atom ⟨.boolLit b, Nat.le_refl 9⟩
  | this => exact atom ⟨.this, Nat.le_refl 9⟩
  | varRef name => exact atom ⟨.varRef name, Nat.le_refl 9⟩
  | newObject name => exact atom ⟨.newObject name, Nat.le_refl 9⟩
  | newArray h hsize => exact atom ⟨.newArray h hsize, Nat.le_refl 9⟩
  | arrayLit h => exact atom ⟨.arrayLit h, Nat.le_refl 9⟩
  | paren h => exact atom ⟨.paren h, Nat.le_refl 9⟩
  | arrayAccess _ hinner hindex ih => exact more (.index hindex) (ih hinner)
  | arrayLength _ hinner ih => exact more .length (ih hinner)
  | call method _ hinner hargs ih => exact more (.call method hargs) (ih hinner)
  | unary => exact absurd hstrong (by decide : ¬ 8 ≤ 7)
  | binary op =>
    rw [strength_binary] at hstrong
    have := op.strength_le
    omega

end MiniJava.Grammar
