import MiniJava.Proofs.Grammar.Operands

/-!
# What phrases begin with and what can follow them

The parts of a program are told apart by their first tokens, and each part ends where the next token
cannot go on with it:

* `Token.startsExpr`, `Token.startsStmt` and `Token.startsType` are the tokens that a phrase of each
  sort begins with;
* `Token.grip` says how tightly a token that goes on with an expression binds, and a row `Follows` an
  operand when its first token binds more weakly;
* `AfterName` is what can stand behind a name at the front of an expression. A declaration and an
  assignment look different there.
-/

namespace MiniJava

open RawNode Grammar
open Token (enclosed commaSeparated BeginsWith)

/-! ## First tokens -/

namespace Token

/-- A name. -/
def isIdent : Token → Bool
  | ident _ => true
  | _ => false

/-- The tokens that are atoms by themselves, other than names. -/
def isConstant : Token → Bool
  | integer _ => true
  | keyword k => k ∈ [.trueKw, .falseKw, .thisKw]
  | _ => false

/-- The tokens that an atom begins with. -/
def startsAtom : Token → Bool
  | integer _ | ident _ => true
  | keyword k => k ∈ [.trueKw, .falseKw, .thisKw, .newKw]
  | punct p => p ∈ [.openBracket, .openParen]

/-- The tokens that an expression begins with. -/
def startsExpr (t : Token) : Bool := t.startsAtom || t == .punct .bang

/-- The tokens that a statement begins with. -/
def startsStmt : Token → Bool
  | keyword .ifKw | keyword .whileKw | keyword .returnKw | punct .openBrace => true
  | t => t.startsExpr

/-- The tokens that a type begins with. -/
def startsType : Token → Bool
  | ident _ => true
  | keyword k => k ∈ [.intKw, .booleanKw, .stringKw, .voidKw]
  | _ => false

/-- How tightly a token binds that goes on with an expression; 0 for those that do not. -/
def grip : Token → Nat
  | punct .orOr => 1
  | punct .andAnd => 2
  | punct .equal | punct .notEqual => 3
  | punct .less | punct .greater | punct .lessEqual | punct .greaterEqual => 4
  | punct .plus | punct .minus => 5
  | punct .star | punct .slash => 6
  | punct .openBracket | punct .dot | punct .openParen => 8
  | _ => 0

@[simp] theorem grip_operator (op : BinaryOp) : (punct op.punct).grip = op.strength := by
  cases op <;> rfl

theorem startsStmt_of_startsExpr {t : Token} (h : t.startsExpr = true) : t.startsStmt = true := by
  unfold startsStmt
  split
  · rfl
  · rfl
  · rfl
  · rfl
  · exact h

end Token

theorem RawNode.IsFlatType.beginsWith {t : RawNode} (h : t.IsFlatType) :
    BeginsWith Token.startsType t.tokens := by
  cases h <;> exact ⟨_, _, rfl, rfl⟩

theorem RawNode.IsType.beginsWith {t : RawNode} (h : t.IsType) :
    BeginsWith Token.startsType t.tokens := by
  cases h with
  | flat h => exact h.beginsWith
  | array h | varargs h => exact h.beginsWith.append _

theorem RawNode.IsExpr.beginsWith {e : RawNode} (h : e.IsExpr) :
    BeginsWith Token.startsExpr e.tokens := by
  induction h with
  | intLit | this | varRef | newObject | newArray | paren | unary => exact ⟨_, _, rfl, rfl⟩
  | boolLit b => cases b <;> exact ⟨_, _, rfl, rfl⟩
  | arrayLit => exact ⟨_, _, tokens_arrayLit _, rfl⟩
  | arrayAccess _ _ _ ih | arrayLength _ _ ih => exact ih.append _
  | call =>
    rw [tokens_call]
    exact BeginsWith.append ‹_› _
  | binary op _ _ _ _ ih =>
    rw [tokens_binary]
    exact ih.append _

/-- Only a negation begins with a `!`. -/
theorem RawNode.IsOperand.beginsWith {e : RawNode} (h : e.IsOperand 8) :
    BeginsWith Token.startsAtom e.tokens := by
  obtain ⟨operand, ss, ⟨hoperand, hstrong⟩, -, rfl⟩ := exists_eq_selected h.1 h.2
  rw [tokens_selected]
  refine BeginsWith.append ?_ _
  cases hoperand with
  | intLit | this | varRef | newObject | newArray | paren => exact ⟨_, _, rfl, rfl⟩
  | boolLit b => cases b <;> exact ⟨_, _, rfl, rfl⟩
  | arrayLit => exact ⟨_, _, tokens_arrayLit _, rfl⟩
  | arrayAccess | arrayLength | call => exact absurd hstrong (by decide : ¬ 9 ≤ 8)
  | unary => exact absurd hstrong (by decide : ¬ 9 ≤ 7)
  | binary op =>
    rw [strength_binary] at hstrong
    have := op.strength_le
    omega

theorem RawNode.IsStmt.beginsWith {s : RawNode} (h : s.IsStmt) :
    BeginsWith Token.startsStmt s.tokens := by
  cases h with
  | block => exact ⟨_, _, tokens_block _, rfl⟩
  | returning => exact ⟨_, _, tokens_returning _, rfl⟩
  | ifThen | ifElse | whileLoop | assign | arrayAssign => exact ⟨_, _, rfl, rfl⟩
  | exprStmt h =>
    exact (h.beginsWith.mono fun _ => Token.startsStmt_of_startsExpr).append _

/-! ## Followers -/

/-- The row does not go on with an operand whose parts hang together as tightly as `k` says. -/
def Follows (k : Nat) (us : List Token) : Prop := ∀ t ∈ us.head?, t.grip < k

theorem Follows.mono {j k : Nat} {us : List Token} (h : Follows j us) (hjk : j ≤ k) :
    Follows k us := fun t ht => Nat.lt_of_lt_of_le (h t ht) hjk

theorem follows_cons {k : Nat} {t : Token} (h : t.grip < k) (us : List Token) :
    Follows k (t :: us) := by
  rintro _ ⟨⟩
  exact h

/-! ## Behind a name -/

/-- What can stand behind a name at the front of an expression: nothing, an operator or a dot and
whatever comes next, or an index with more of the kind. -/
inductive AfterName : List Token → Prop
  | nil : AfterName []
  | operator (op : BinaryOp) (ts : List Token) : AfterName (.punct op.punct :: ts)
  | dot (ts : List Token) : AfterName (.punct .dot :: ts)
  | index {i : RawNode} {ts : List Token} (hi : i.IsExpr) (h : AfterName ts) :
    AfterName (enclosed .openBracket .closeBracket i.tokens ++ ts)

theorem AfterName.append {ts us : List Token} (hts : AfterName ts) (hus : AfterName us) :
    AfterName (ts ++ us) := by
  induction hts with
  | nil => exact hus
  | operator op ts => exact .operator op (ts ++ us)
  | dot ts => exact .dot (ts ++ us)
  | index hi _ ih =>
    rw [List.append_assoc]
    exact .index hi ih

/-- Where an expression begins with a name, so does what goes on with it. -/
theorem AfterName.front {name : String} {a : RawNode} {us : List Token} (ha : a.IsExpr)
    (h : ∀ {ts}, a.tokens = .ident name :: ts → AfterName ts) (hus : AfterName us)
    {ts : List Token} (hts : a.tokens ++ us = .ident name :: ts) : AfterName ts := by
  obtain ⟨t, vs, hvs, -⟩ := ha.beginsWith
  rw [hvs] at hts
  cases hts
  exact (h hvs).append hus

theorem RawNode.IsExpr.afterName {e : RawNode} (h : e.IsExpr) {name : String} {ts : List Token}
    (hts : e.tokens = .ident name :: ts) : AfterName ts := by
  induction h generalizing ts with
  | varRef =>
    cases hts
    exact .nil
  | intLit | this | newObject | newArray | paren | unary => cases hts
  | boolLit b => cases b <;> cases hts
  | arrayLit =>
    rw [tokens_arrayLit] at hts
    cases hts
  | arrayAccess ha _ hi ih =>
    rw [tokens_arrayAccess] at hts
    refine .front ha ih ?_ hts
    rw [← List.append_nil (enclosed ..)]
    exact .index hi .nil
  | arrayLength ha _ ih => exact .front ha ih (.dot _) hts
  | call method ha _ _ ih =>
    rw [tokens_call] at hts
    exact .front ha ih (.dot _) hts
  | binary op ha _ _ _ ih =>
    rw [tokens_binary] at hts
    exact .front ha ih (.operator op _) hts

/-- An expression begins with a name and something behind it, or with a token that is no name. -/
theorem RawNode.IsExpr.name_or_beginsWith {e : RawNode} (h : e.IsExpr) :
    (∃ name ts, e.tokens = .ident name :: ts ∧ AfterName ts) ∨
      BeginsWith (fun t => t.startsExpr && !t.isIdent) e.tokens := by
  obtain ⟨t, ts, hts, ht⟩ := h.beginsWith
  cases t with
  | ident name => exact .inl ⟨name, ts, hts, h.afterName hts⟩
  | _ => exact .inr ⟨_, ts, hts, by simp [ht, Token.isIdent]⟩

/-- Behind a name comes what goes on with the expression, or else the end of the statement. -/
theorem AfterName.grip_pos {ts us : List Token} (h : AfterName ts) {t : Token}
    (ht : t ∈ (ts ++ .punct .semicolon :: us).head?) : 0 < t.grip ∨ t = .punct .semicolon := by
  cases h with
  | nil =>
    cases ht
    exact .inr rfl
  | operator op =>
    cases ht
    rw [Token.grip_operator]
    exact .inl op.strength_pos
  | dot | index =>
    cases ht
    exact .inl (by decide)

end MiniJava
