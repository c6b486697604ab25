import MiniJava.Text.Layout
import MiniJava.Text.Number
import MiniJava.Text.Position

/-!
# Raw trees

A raw tree is what the grammar yields: every node has a kind given by a word, a set of named
attributes whose values are texts, and children. Nothing says which attributes and children belong
to a kind; the syntax tree built from it does.

While a text is read, the attribute `offset` holds where a node starts. It is given by the first
token (`at_offset`) or taken over from the operand in front (`inherit_offset`). When all is read,
`RawNode.resolvePositions` puts the attributes `line` and `col` in its place.

`RawNode.text` lists a tree on lines that are indented by depth, without the positions.
-/

namespace MiniJava

/-! ## Attributes -/

/-- Named texts in the order of their names, each name once. -/
structure Attributes where
  entries : List (String × String) := []
deriving DecidableEq, Repr, Inhabited

namespace Attributes

/-- Put an entry at its place, over an older one of the same name. -/
def insertInto (key value : String) : List (String × String) → List (String × String)
  | [] => [(key, value)]
  | (k, v) :: rest =>
    if key = k then (key, value) :: rest
    else if key < k then (key, value) :: (k, v) :: rest
    else (k, v) :: insertInto key value rest

/-- Give a name a value. -/
def insert (as : Attributes) (key value : String) : Attributes :=
  ⟨insertInto key value as.entries⟩

/-- Take away the entry of a name. -/
def remove (as : Attributes) (key : String) : Attributes := ⟨as.entries.filter (·.1 != key)⟩

/-- The value of a name. -/
def get? (as : Attributes) (key : String) : Option String := as.entries.lookup key

theorem lookup_insertInto (key value name : String) (es : List (String × String)) :
    (insertInto key value es).lookup name = if name = key then some value else es.lookup name := by
  induction es with
  | nil =>
    rw [insertInto, List.lookup_cons, List.lookup_nil]
    by_cases h : name = key
    · rw [if_pos h, beq_iff_eq.mpr h]
    · rw [if_neg h, beq_eq_false_iff_ne.mpr h]
  | cons e es ih =>
    obtain ⟨k, v⟩ := e
    unfold insertInto
    grind

@[simp] theorem get?_insert (as : Attributes) (key value name : String) :
    (as.insert key value).get? name = if name = key then some value else as.get? name :=
  lookup_insertInto key value name as.entries

@[simp] theorem get?_remove (as : Attributes) (key : String) : (as.remove key).get? key = none := by
  refine List.lookup_eq_none_iff.mpr fun e he => ?_
  have hne : e.1 ≠ key := bne_iff_ne.mp (List.mem_filter.mp he).2
  exact bne_iff_ne.mpr hne.symm

/-- The attributes given by a list; of two with one name the later counts. -/
def ofList (es : List (String × String)) : Attributes :=
  es.foldl (fun as e => as.insert e.1 e.2) {}

/-- Line and column in the place of the offset. An offset that is no number is dropped. -/
def resolvePosition (lines : Lines) (as : Attributes) : Attributes :=
  match as.get? "offset" with
  | none => as
  | some text =>
    let rest := as.remove "offset"
    match readNatural? text with
    | none => rest
    | some offset =>
      let p := lines.position offset
      (rest.insert "line" (toString p.line)).insert "col" (toString p.column)

end Attributes

/-! ## Nodes -/

/-- A node whose kind is given by a word. -/
structure RawNode where
  kind : String
  attributes : Attributes
  children : List RawNode
deriving Repr, Inhabited

namespace RawNode

/-- What holds of a raw node whenever it holds of its children holds of every raw node. -/
theorem induction {P : RawNode → Prop} (step : ∀ n, (∀ c ∈ n.children, P c) → P n) (n : RawNode) :
    P n :=
  step n fun c _ => induction step c
termination_by sizeOf n
decreasing_by
  rename_i hc
  have hlt := List.sizeOf_lt_of_mem hc
  cases n
  simp only [mk.sizeOf_spec] at hlt ⊢
  omega

/-- The value of an attribute. -/
def get? (n : RawNode) (key : String) : Option String := n.attributes.get? key

/-- A node of the grammar. Its offset is recorded if there is one. -/
def place (kind : String) (offset? : Option String) (attributes : List (String × String))
    (children : List RawNode) : RawNode :=
  ⟨kind, offset?.elim (.ofList attributes) ((Attributes.ofList attributes).insert "offset"),
    children⟩

/-- A node of the grammar that starts at an offset. -/
abbrev atOffset (offset : Nat) (kind : String) (attributes : List (String × String))
    (children : List RawNode) : RawNode := place kind (some (toString offset)) attributes children

/-- A node of the grammar that starts where another does. -/
abbrev inheritOffset (source : RawNode) (kind : String) (attributes : List (String × String))
    (children : List RawNode) : RawNode := place kind (source.get? "offset") attributes children

/-- A flag is set by the text `true` and by no other. -/
def flag (n : RawNode) (key : String) : Bool := n.get? key == some "true"

/-- The position held by the attributes. A part that is missing or no number is 0. -/
def position (n : RawNode) : Position :=
  let read (key : String) : UInt32 := ((n.get? key).bind readWord?).getD 0
  ⟨read "line", read "col"⟩

mutual

/-- The tree with the positions of the offsets that were recorded. -/
def resolvePositions (lines : Lines) : RawNode → RawNode
  | ⟨kind, attributes, children⟩ =>
    ⟨kind, attributes.resolvePosition lines, resolveAll lines children⟩

/-- Several trees with their positions. -/
def resolveAll (lines : Lines) : List RawNode → List RawNode
  | [] => []
  | n :: ns => resolvePositions lines n :: resolveAll lines ns

end

/-- The line for one node: its kind, and its attributes other than the position in brackets. -/
def headLine (depth : Nat) (kind : String) (attributes : Attributes) : String :=
  let shown := attributes.entries.filter fun e => e.1 != "line" && e.1 != "col"
  let tail :=
    if shown.isEmpty then ""
    else " (" ++ String.intercalate ", " (shown.map fun e => e.1 ++ "=" ++ e.2) ++ ")"
  String.ofList (List.replicate (2 * depth) ' ') ++ kind ++ tail

mutual

/-- The lines of a tree that stands at a depth. -/
def lines (depth : Nat) : RawNode → List String
  | ⟨kind, attributes, children⟩ =>
    headLine depth kind attributes :: linesAll (depth + 1) children

/-- The lines of several trees at one depth. -/
def linesAll (depth : Nat) : List RawNode → List String
  | [] => []
  | n :: ns => lines depth n ++ linesAll depth ns

end

/-- The tree on indented lines, each closed by a line feed. -/
def text (n : RawNode) : String := joinLines (n.lines 0)

end RawNode

end MiniJava
