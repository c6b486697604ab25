import MiniJava.Proofs.Grammar.Integers
import MiniJava.Proofs.Paraphrase.Brackets

/-!
# The tokens of a tree with more parentheses

More parentheses add round brackets to the tokens and nothing else: a selection of tokens that
leaves out round brackets is the same (`Wraps.filterMap_tokens`), in particular the integers are.
-/

namespace MiniJava

namespace RawNode

open Token

variable {β : Type} (f : Token → Option β)

/-! ## Written nodes -/

theorem filterMap_commaSeparated (rows : List (List Token)) :
    (commaSeparated rows).filterMap f =
      (List.filterMap f [.punct .comma]).intercalate (rows.map (List.filterMap f)) := by
  rw [commaSeparated]
  generalize [Token.punct .comma] = sep
  induction rows with
  | nil => rfl
  | cons row rows ih =>
    cases rows with
    | nil => simp
    | cons next rows => simpa [List.intercalate_cons_cons] using ih

variable {f} {rows : List (List Token × List Token)}

theorem filterMap_flatten_eq (h : ∀ r ∈ rows, r.2.filterMap f = r.1.filterMap f) :
    (rows.map Prod.snd).flatten.filterMap f = (rows.map Prod.fst).flatten.filterMap f := by
  rw [List.filterMap_flatten, List.filterMap_flatten, List.map_map, List.map_map]
  exact congrArg List.flatten (List.map_congr_left h)

theorem filterMap_commaSeparated_eq (h : ∀ r ∈ rows, r.2.filterMap f = r.1.filterMap f) :
    (commaSeparated (rows.map Prod.snd)).filterMap f =
      (commaSeparated (rows.map Prod.fst)).filterMap f := by
  rw [filterMap_commaSeparated, filterMap_commaSeparated, List.map_map, List.map_map]
  exact congrArg _ (List.map_congr_left h)

theorem filterMap_writeType_eq {kind : String} {attributes : Attributes} {cs cs' : List RawNode}
    (h : ∀ r ∈ rows, r.2.filterMap f = r.1.filterMap f) :
    (writeType ⟨kind, attributes, cs'⟩ (rows.map Prod.snd)).filterMap f =
      (writeType ⟨kind, attributes, cs⟩ (rows.map Prod.fst)).filterMap f := by
  unfold writeType
  rcases rows with _ | ⟨x, _ | ⟨y, rows⟩⟩
  · rfl
  · have hx := h x List.mem_cons_self
    simp only [List.map_cons, List.map_nil]
    split <;> simp_all [word, get?]
  · simp only [List.map_cons]
    split <;> simp_all [word, get?]

/-- What is kept of a written node depends on what is kept of its parts. -/
theorem filterMap_write_eq {kind : String} {attributes : Attributes} {cs cs' : List RawNode}
    (hparams : cs'.countP isParam = cs.countP isParam)
    (h : ∀ r ∈ rows, r.2.filterMap f = r.1.filterMap f) :
    (write ⟨kind, attributes, cs'⟩ (rows.map Prod.snd)).filterMap f =
      (write ⟨kind, attributes, cs⟩ (rows.map Prod.fst)).filterMap f := by
  have hword (key : String) : word ⟨kind, attributes, cs'⟩ key = word ⟨kind, attributes, cs⟩ key :=
    rfl
  have hflag (key : String) : flag ⟨kind, attributes, cs'⟩ key = flag ⟨kind, attributes, cs⟩ key :=
    rfl
  have hext : get? ⟨kind, attributes, cs'⟩ "ext" = get? ⟨kind, attributes, cs⟩ "ext" := rfl
  have hall := filterMap_flatten_eq h
  unfold write
  cases Label.ofName? kind with
  | none => exact filterMap_writeType_eq h
  | some l =>
    cases l with
    | program => exact hall
    | importDecl | varRef | intLit | boolLit | this | newObject => rfl
    | classDecl | block | returning =>
      simp only [enclosed, List.filterMap_cons, List.filterMap_append, hall, hword, hext]
    | arrayLit =>
      simp only [enclosed, List.filterMap_cons, List.filterMap_append,
        filterMap_commaSeparated_eq h]
    | methodDecl =>
      cases rows with
      | nil => rfl
      | cons x rows =>
        obtain ⟨hx, hxs⟩ := List.forall_mem_cons.mp h
        have hhead (n : Nat) : (commaSeparated ((rows.take n).map Prod.snd)).filterMap f =
            (commaSeparated ((rows.take n).map Prod.fst)).filterMap f :=
          filterMap_commaSeparated_eq fun r hr => hxs r (List.mem_of_mem_take hr)
        have hbody (n : Nat) : ((rows.drop n).map Prod.snd).flatten.filterMap f =
            ((rows.drop n).map Prod.fst).flatten.filterMap f :=
          filterMap_flatten_eq fun r hr => hxs r (List.mem_of_mem_drop hr)
        simp only [List.map_cons, writeMethod, hparams, ← List.map_take, ← List.map_drop, enclosed,
          List.filterMap_cons, List.filterMap_append, hx, hhead, hbody, hword, hflag]
    | call =>
      cases rows with
      | nil => rfl
      | cons x rows =>
        obtain ⟨hx, hxs⟩ := List.forall_mem_cons.mp h
        simp only [List.map_cons, enclosed, List.filterMap_cons, List.filterMap_append, hx,
          filterMap_commaSeparated_eq hxs, hword]
    | varDecl | param | assign | exprStmt | unary | newArray | arrayLength | paren =>
      rcases rows with _ | ⟨x, _ | ⟨y, rows⟩⟩
      · rfl
      · have hx := h x List.mem_cons_self
        simp only [List.map_cons, List.map_nil, enclosed, List.filterMap_cons,
          List.filterMap_append, hx, hword]
      · rfl
    | arrayAssign | whileLoop | binary | arrayAccess =>
      rcases rows with _ | ⟨x, _ | ⟨y, _ | ⟨z, rows⟩⟩⟩
      · rfl
      · rfl
      · obtain ⟨hx, hxs⟩ := List.forall_mem_cons.mp h
        have hy := hxs y List.mem_cons_self
        simp only [List.map_cons, List.map_nil, enclosed, List.filterMap_cons,
          List.filterMap_append, hx, hy, hword]
      · rfl
    | ifElse =>
      rcases rows with _ | ⟨x, _ | ⟨y, _ | ⟨z, _ | ⟨w, rows⟩⟩⟩⟩
      · rfl
      · rfl
      · obtain ⟨hx, hxs⟩ := List.forall_mem_cons.mp h
        have hy := hxs y List.mem_cons_self
        simp only [List.map_cons, List.map_nil, enclosed, List.filterMap_cons,
          List.filterMap_append, hx, hy]
      · obtain ⟨hx, hxs⟩ := List.forall_mem_cons.mp h
        obtain ⟨hy, hys⟩ := List.forall_mem_cons.mp hxs
        have hz := hys z List.mem_cons_self
        simp only [List.map_cons, List.map_nil, enclosed, List.filterMap_cons,
          List.filterMap_append, hx, hy, hz]
      · rfl

/-! ## Wrapped trees -/

variable {t : SymbolTable} {a b : RawNode}

/-- Parameters are not put in parentheses. -/
theorem Wraps.isParam_eq (h : Wraps t a b) : b.isParam = a.isParam := by
  cases h with
  | node => rfl
  | paren _ isExpr => cases isExpr <;> rfl

/-- **Wrapping adds round brackets.** What is kept of the tokens stays the same where round brackets
are not kept. -/
theorem Wraps.filterMap_tokens (h : Wraps t a b) (hopen : f (.punct .openParen) = none)
    (hclose : f (.punct .closeParen) = none) : b.tokens.filterMap f = a.tokens.filterMap f := by
  induction h with
  | @node kind attributes cs below ih =>
    have hparams : (cs.map Prod.snd).countP isParam = (cs.map Prod.fst).countP isParam := by
      rw [List.countP_map, List.countP_map]
      exact List.countP_congr fun x hx => by
        rw [Function.comp, Function.comp, (below x hx).isParam_eq]
    have hwrite := @filterMap_write_eq _ f (cs.map fun x => (x.1.tokens, x.2.tokens)) kind
      attributes _ _ hparams (List.forall_mem_map.mpr ih)
    rw [List.map_map, List.map_map] at hwrite
    rw [tokens_eq, tokens_eq, List.map_map, List.map_map]
    exact hwrite
  | @paren a b _ _ _ ih =>
    rw [tokens_paren]
    simp [enclosed, hopen, hclose, ih]

theorem Wraps.integers_tokens (h : Wraps t a b) : integers b.tokens = integers a.tokens :=
  h.filterMap_tokens rfl rfl

end RawNode

end MiniJava
