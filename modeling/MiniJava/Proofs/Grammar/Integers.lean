import Mathlib.Data.Nat.Digits.Defs
import MiniJava.Proofs.Grammar.Soundness
import MiniJava.Text.Number

/-!
# The integers of a text

`Token.integers` lists the integers among tokens, as they are written. In a text each of them is a
row of decimal digits (`isNumeral_of_mem_integers`), and a row of digits is refused exactly when the
number that it denotes is too large (`readInt32?_eq_none_iff`).
-/

namespace MiniJava

/-! ## Numerals -/

/-- The number that a row of decimal digits denotes. -/
def numeral (digits : String) : Nat :=
  Nat.ofDigits 10 (digits.toList.reverse.map fun c => c.toNat - '0'.toNat)

/-- At least one decimal digit, and nothing else. -/
def IsNumeral (digits : String) : Prop :=
  digits.toList ≠ [] ∧ ∀ c ∈ digits.toList, c.isDigit = true

theorem readDigits?_eq {digits : String} (h : IsNumeral digits) :
    readDigits? digits.toList = some (numeral digits) := by
  obtain ⟨hne, hdigits⟩ := h
  have hfold (cs : List Char) : cs.foldl (fun n c => 10 * n + (c.toNat - '0'.toNat)) 0 =
      Nat.ofDigits 10 (cs.reverse.map fun c => c.toNat - '0'.toNat) := by
    rw [Nat.ofDigits_eq_foldr, List.foldr_map, List.foldr_reverse]
    simp only [Nat.cast_id, Nat.add_comm]
  rw [readDigits?, if_neg (by simpa [hne] using hdigits), hfold, numeral]

/-- A row of digits has no sign. -/
theorem readInteger?_eq {digits : String} (h : IsNumeral digits) :
    readInteger? digits.toList = some (numeral digits : Int) := by
  have hread := readDigits?_eq h
  obtain ⟨hne, hdigits⟩ := h
  unfold readInteger?
  split
  · rename_i hcs
    exact absurd (hdigits '-' (by simp [hcs])) (by decide)
  · rename_i hcs
    exact absurd (hdigits '+' (by simp [hcs])) (by decide)
  · rw [hread]
    rfl

/-- A row of digits is refused when the number is too large, and for no other reason. -/
theorem readInt32?_eq_none_iff {digits : String} (h : IsNumeral digits) :
    readInt32? digits = none ↔ 2147483647 < numeral digits := by
  rw [readInt32?, readInteger?_eq h, Option.bind_some]
  split <;> simp <;> omega

/-! ## Integers of a text -/

namespace Token

/-- The digits of an integer. -/
def digits? : Token → Option String
  | integer digits => some digits
  | _ => none

/-- The integers among tokens, as they are written. -/
def integers (ts : List Token) : List String := ts.filterMap digits?

section

variable (ts us : List Token)

@[simp] theorem integers_nil : integers [] = [] := rfl

@[simp] theorem integers_keyword (k : Keyword) : integers (.keyword k :: ts) = integers ts := rfl

@[simp] theorem integers_punct (p : Punct) : integers (.punct p :: ts) = integers ts := rfl

@[simp] theorem integers_ident (name : String) : integers (.ident name :: ts) = integers ts := rfl

@[simp] theorem integers_integer (digits : String) :
    integers (.integer digits :: ts) = digits :: integers ts := rfl

@[simp] theorem integers_append : integers (ts ++ us) = integers ts ++ integers us :=
  List.filterMap_append

@[simp] theorem integers_ofName (name : String) : integers (ofName name :: ts) = integers ts := by
  unfold ofName
  split <;> rfl

@[simp] theorem integers_enclosed (left right : Punct) :
    integers (enclosed left right ts) = integers ts := by
  simp [enclosed]

@[simp] theorem integers_flatMap {α : Type} (w : α → List Token) (as : List α) :
    integers (as.flatMap w) = as.flatMap fun a => integers (w a) := by
  rw [integers, List.filterMap_flatMap]
  rfl

@[simp] theorem integers_intercalate (p : Punct) (rows : List (List Token)) :
    integers ([Token.punct p].intercalate rows) = rows.flatMap integers := by
  cases rows with
  | nil => rfl
  | cons row rows =>
    rw [Parser.intercalate_cons, integers_append, integers_flatMap, List.flatMap_cons]
    rfl

@[simp] theorem integers_commaSeparated (rows : List (List Token)) :
    integers (commaSeparated rows) = rows.flatMap integers := integers_intercalate _ _

@[simp] theorem integers_dotted (path : String) : integers (dotted path) = [] := by
  rw [dotted, integers_intercalate, List.flatMap_map]
  simp
end

end Token

/-! ## Texts -/

/-- The tokens of a text. -/
def tokensOf (source : String) : List Token :=
  (pieces 0 source.toList).filterMap fun p =>
    match p.kind with
    | .token t => some t
    | _ => none

theorem Input.tokens_ofPieces (size : Nat) (source : String) :
    (Input.ofPieces size (pieces 0 source.toList)).tokens = tokensOf source := by
  change (lexemes (pieces 0 source.toList)).map Lexeme.token = _
  rw [lexemes, List.map_filterMap, tokensOf]
  congr 1
  funext p
  cases p.kind <;> rfl

/-- The integers of a text are rows of digits. -/
theorem isNumeral_of_mem_integers {source digits : String}
    (h : digits ∈ Token.integers (tokensOf source)) : IsNumeral digits := by
  obtain ⟨t, ht, hdigits⟩ := List.mem_filterMap.mp h
  rw [← Input.tokens_ofPieces 0] at ht
  obtain ⟨l, hl, rfl⟩ := List.mem_map.mp ht
  have hlexical := Input.isLexical_ofPieces hl
  cases htoken : l.token with
  | integer ds =>
    rw [htoken] at hdigits hlexical
    cases hdigits
    exact hlexical
  | _ => rw [htoken] at hdigits; cases hdigits

end MiniJava
