import MiniJava.Proofs.Grammar.Rows
import MiniJava.Proofs.Grammar.Soundness

/-!
# Nodes start at their first tokens

Every production gives its node the offset where the row of the text starts that the node was read
from, and so do the productions for its parts (`Parser.Places`). Operations, selections and
negations are made around nodes that have been read before. The row grows with each of them. To the
left it grows by the sign of a negation, whose offset is the one that counts. To the right it grows
behind a left operand, and then the offset that is taken over from the operand is still that of the
first token (`RawNode.opens_inheritOffset`).

Written types have no offset at all. The productions come in the order of the grammar.
-/

namespace MiniJava

open Token (enclosed commaSeparated)

/-! ## Nodes -/

namespace RawNode

/-- The node has the offset of the first token of the row, unless it is a written type: nothing is
said there of places. -/
structure AtFirst (ls : List Lexeme) (n : RawNode) : Prop where
  ne_nil : ls ≠ []
  no_place : isTypeKind n.kind = true →
    n.get? "offset" = none ∧ n.get? "line" = none ∧ n.get? "col" = none
  place : isTypeKind n.kind = false →
    ∀ l ∈ ls.head?, n.get? "offset" = some (toString l.span.start)

/-- The node was read from the row and holds the offset where it starts: it is no written type. -/
def Opens (ls : List Lexeme) (n : RawNode) : Prop :=
  ReadFrom AtFirst ls n ∧ isTypeKind n.kind = false

section

variable {l : Label} {kind : String} {p : Nat} {as : List (String × String)}
  {cs : List RawNode} {ls : List Lexeme} {frame : List (Option Token)}

/-- A node that is placed at an offset holds it. -/
theorem get?_place_offset (kind offset : String) (as : List (String × String))
    (cs : List RawNode) : (place kind (some offset) as cs).get? "offset" = some offset := by
  change ((Attributes.ofList as).insert "offset" offset).get? "offset" = _
  rw [Attributes.get?_insert, if_pos rfl]

/-- A row with parts that are not empty is not empty unless nothing is in it. -/
theorem ne_nil_of_fills (h : Fills (ReadFrom AtFirst) frame ls cs) (hframe : frame ≠ []) :
    ls ≠ [] := by
  cases h with
  | nil => exact absurd rfl hframe
  | token => exact List.cons_ne_nil _ _
  | part ha _ =>
    cases ha with
    | node _ _ here => exact List.append_ne_nil_of_left_ne_nil here.ne_nil _

/-- A node that is made at the first token of its row. -/
theorem opens_atOffset (has : as.all (isLasting ·.1) = true) (hframe : frame ≠ [])
    (hwritten : ∀ rows, rows.length = cs.length →
      (plain l as (cs.map unplaced)).write rows = fill frame rows)
    (hparts : Fills (ReadFrom AtFirst) frame ls cs) (hp : ∀ t ∈ ls.head?, p = t.span.start) :
    Opens ls (atOffset p l.name as cs) := by
  have htype : isTypeKind (atOffset p l.name as cs).kind = false :=
    Node.isTypeKind_of_ofName? (Label.ofName?_name l)
  refine ⟨.node (fun rows h => ?_) hparts ⟨ne_nil_of_fills hparts hframe, fun h => ?_, ?_⟩, htype⟩
  · rw [← write_unplaced, unplaced_place _ _ as (List.all_eq_true.mp has)]
    exact hwritten rows h
  · rw [htype] at h
    cases h
  · rintro - t ht
    rw [← hp t ht]
    exact get?_place_offset _ _ _ _

/-- A node around a left operand, whose offset it takes over. -/
theorem opens_inheritOffset {n : RawNode} {ms : List Lexeme}
    (has : as.all (isLasting ·.1) = true)
    (hwritten : ∀ rows, rows.length = (n :: cs).length →
      (plain l as ((n :: cs).map unplaced)).write rows = fill (none :: frame) rows)
    (hn : Opens ls n) (hparts : Fills (ReadFrom AtFirst) frame ms cs) :
    Opens (ls ++ ms) (n.inheritOffset l.name as (n :: cs)) := by
  obtain ⟨hread, htype⟩ := hn
  have hfills := Fills.part hread hparts
  cases hread with
  | node written parts here =>
    obtain ⟨t, ts, rfl⟩ := List.exists_cons_of_ne_nil here.ne_nil
    have hoffset : n.get? "offset" = some (toString t.span.start) := here.place htype t rfl
    rw [inheritOffset, hoffset]
    refine opens_atOffset has (List.cons_ne_nil _ _) hwritten hfills ?_
    rintro _ ⟨⟩
    rfl

/-- A written type holds no position. -/
theorem readFrom_typeNode {v : Option String} (hkind : isTypeKind kind = true)
    (hframe : frame ≠ []) (hwritten : ∀ rows, rows.length = cs.length →
      (Grammar.typeNode kind (v.toList.map fun v => ("value", v)) cs).write rows =
        fill frame rows)
    (hparts : Fills (ReadFrom AtFirst) frame ls cs) :
    ReadFrom AtFirst ls (Grammar.typeNode kind (v.toList.map fun v => ("value", v)) cs) := by
  refine .node hwritten hparts ⟨ne_nil_of_fills hparts hframe, ?_, ?_⟩
  · cases v <;> exact fun _ => ⟨rfl, rfl, rfl⟩
  · exact fun h => absurd (hkind.symm.trans h) (by decide)

@[simp] theorem ofName?_kind_plain : Label.ofName? (plain l as cs).kind = some l :=
  Label.ofName?_name l

@[simp] theorem word_plain (key value : String) : (plain l [(key, value)] cs).word key = value := by
  simp [word, get?, plain, Attributes.ofList]

end

end RawNode

namespace Parser

open RawNode

/-- Every node that `p` reads starts at the first token of its row, and so do all nodes below. -/
abbrev Places (p : Parser RawNode) : Prop := p.Covers Opens

theorem Places.covers {p : Parser RawNode} (h : p.Places) : p.Covers (ReadFrom AtFirst) :=
  h.mono fun _ _ h => h.1

/-- What a production is before its node is made: it started at `p`, and behind the row that fills
`frame` it goes on with `q`. -/
abbrev Ends (p : Nat) (frame : List (Option Token)) (cs : List RawNode) (q : Parser RawNode) :
    Prop :=
  Continues (ReadFrom AtFirst) frame cs q fun ls n =>
    (∀ l ∈ ls.head?, p = l.span.start) → Opens ls n

theorem Places.here {f : Nat → Parser RawNode} (h : ∀ p, Ends p [] [] (f p)) :
    (here >>= f).Places :=
  .here_bind fun p => (h p).start

/-- The node is made. -/
theorem made {l : Label} {p : Nat} {as : List (String × String)} {cs : List RawNode}
    {frame : List (Option Token)} (has : as.all (isLasting ·.1) = true)
    (hframe : frame.isEmpty = false)
    (hwritten : ∀ rows, rows.length = cs.length →
      (plain l as (cs.map unplaced)).write rows = fill frame rows) :
    Ends p frame cs (Pure.pure (atOffset p l.name as cs)) :=
  .pure fun _ hls hp => opens_atOffset has (List.isEmpty_eq_false_iff.mp hframe) hwritten hls hp

end Parser

/-! ### Rows for few parts -/

section Rows

variable {P : List (List Token) → Prop}

theorem forall_no_row (h : P []) : ∀ rows, rows.length = 0 → P rows := by
  rintro rows hrows
  obtain rfl := List.length_eq_zero_iff.mp hrows
  exact h

theorem forall_one_row (h : ∀ a, P [a]) : ∀ rows, rows.length = 1 → P rows := by
  rintro rows hrows
  obtain ⟨a, rfl⟩ := List.length_eq_one_iff.mp hrows
  exact h a

theorem forall_two_rows (h : ∀ a b, P [a, b]) : ∀ rows, rows.length = 2 → P rows := by
  rintro rows hrows
  obtain ⟨a, b, rfl⟩ := List.length_eq_two.mp hrows
  exact h a b

theorem forall_rows {k m : Nat} (h : ∀ row rows rows', rows.length = k → rows'.length = m →
    P (row :: (rows ++ rows'))) : ∀ rows, rows.length = k + m + 1 → P rows := by
  intro rows hrows
  obtain ⟨row, rows, rfl⟩ := List.exists_cons_of_length_eq_add_one hrows
  have hrows : rows.length = k + m := Nat.succ.inj hrows
  rw [← List.take_append_drop k rows]
  exact h row _ _ (List.length_take_of_le (by omega)) (by rw [List.length_drop]; omega)

end Rows

namespace Grammar

open MiniJava.Parser RawNode

variable {expr stmt : Parser RawNode}

/-! ## Atoms -/

theorem integerLiteral_places : integerLiteral.Places := by
  refine .here fun p => .next (f := fun digits => [some (.integer digits)]) (g := fun _ => [])
    (.satisfy fun t digits h => ?_) fun digits => made (l := .intLit) rfl rfl
      (forall_no_row (by simp [write]))
  cases t with
  | integer => cases h; exact ⟨rfl, rfl⟩
  | _ => cases h

theorem booleanLiteral_places : booleanLiteral.Places := by
  refine .here fun p => .next (f := fun value => [some (.ofName value)]) (g := fun _ => [])
    (.satisfy fun t value h => ?_) fun value => made (l := .boolLit) rfl rfl
      (forall_no_row (by simp [write]))
  split at h <;> cases h <;> exact ⟨rfl, rfl⟩

theorem thisExpr_places : thisExpr.Places :=
  .here fun p => .next (.token _) fun _ => made (l := .this) rfl rfl
    (forall_no_row (by simp [write]))

theorem newArray_places (h : expr.Places) : (newArray expr).Places := by
  refine .here fun p => .next (.token _) fun _ =>
    .next (f := fun element => [some (.ofName element)]) (g := fun _ => [])
      (.satisfy fun t element h => ?_) fun element => .next (.between (.node h.covers)) fun size =>
        made (l := .newArray) rfl rfl (forall_one_row (by simp [write, enclosed]))
  split at h <;> cases h <;> exact ⟨rfl, rfl⟩

theorem newObject_places : newObject.Places :=
  .here fun p => .next (.token _) fun _ => .next .ident fun name => .next (.token _) fun _ =>
    .next (.token _) fun _ => made (l := .newObject) rfl rfl (forall_no_row (by simp [write]))

theorem arrayLiteral_places (h : expr.Places) : (arrayLiteral expr).Places :=
  .here fun p => .next (.between (.commaNodes h.covers)) fun es => made (l := .arrayLit) rfl rfl
    fun rows (hrows : rows.length = es.length) => by
      simp [write, enclosed, fill_last_commaHoles hrows]

theorem parenthesis_places (h : expr.Places) : (parenthesis expr).Places :=
  .here fun p => .next (.between (.node h.covers)) fun inner => made (l := .paren) rfl rfl
    (forall_one_row (by simp [write, enclosed]))

theorem variableRef_places : variableRef.Places :=
  .here fun p => .next .ident fun name => made (l := .varRef) rfl rfl
    (forall_no_row (by simp [write]))

theorem atom_places (h : expr.Places) : (atom expr).Places := by
  refine .choice ?_
  simp only [List.forall_mem_cons]
  exact ⟨integerLiteral_places, booleanLiteral_places, thisExpr_places, newArray_places h,
    newObject_places, arrayLiteral_places h, parenthesis_places h, variableRef_places, nofun⟩

/-! ## Selectors -/

/-- How a selector is written behind an operand, with holes for its parts. -/
def Selector.frame : Selector → List (Option Token)
  | index _ => [some (.punct .openBracket), none, some (.punct .closeBracket)]
  | length => [some (.punct .dot), some (.ident "length")]
  | call method arguments =>
    some (.punct .dot) :: some (.ident method) :: some (.punct .openParen) ::
      (commaHoles arguments.length ++ [some (.punct .closeParen)])

/-- The parts of a selector. -/
def Selector.parts : Selector → List RawNode
  | index e => [e]
  | length => []
  | call _ arguments => arguments

theorem subscript_forms (h : expr.Places) :
    Forms (ReadFrom AtFirst) (subscript expr) Selector.frame Selector.parts :=
  Continues.start (.next (.between (.node h.covers)) fun _ => .pure fun _ hls => hls)

theorem member_forms (h : expr.Places) :
    Forms (ReadFrom AtFirst) (member expr) Selector.frame Selector.parts := by
  refine Covers.tryMap (R := fun ls m => Fills (ReadFrom AtFirst)
    (some (.punct .dot) :: some (.ident m.1) :: m.2.elim [] fun as =>
      some (.punct .openParen) :: (commaHoles as.length ++ [some (.punct .closeParen)]))
    ls (m.2.elim [] id)) ?_ ?_
  · exact Continues.start (.next (.token _) fun _ => .next .ident fun name =>
      .next (.optional (.between (.commaNodes h.covers))) fun as? => .pure fun ls hls => hls)
  · rintro ls ⟨name, as?⟩ s hls hs
    cases as? with
    | some as =>
      cases hs
      exact hls
    | none =>
      dsimp only at hs
      split at hs <;> cases hs
      rename_i hname
      subst hname
      exact hls

/-- A selection starts where its operand does. -/
theorem Selector.opens_apply {ls ms : List Lexeme} {operand : RawNode} {s : Selector}
    (ho : Opens ls operand) (hs : Fills (ReadFrom AtFirst) s.frame ms s.parts) :
    Opens (ls ++ ms) (apply operand s) := by
  cases s with
  | index e =>
    refine opens_inheritOffset (l := .arrayAccess) rfl ?_ ho hs
    exact forall_two_rows (by simp [write, enclosed, frame])
  | length =>
    refine opens_inheritOffset (l := .arrayLength) rfl ?_ ho hs
    exact forall_one_row (by simp [write, frame])
  | call method arguments =>
    refine opens_inheritOffset (l := .call) rfl (fun rows hrows => ?_) ho hs
    obtain ⟨row, rows, rfl⟩ := List.exists_cons_of_length_eq_add_one hrows
    have hrows : rows.length = arguments.length := Nat.succ.inj hrows
    simp [write, enclosed, frame, fill_last_commaHoles hrows]

theorem selection_places (h : expr.Places) : (selection expr).Places := by
  refine (atom_places h).bind fun ls operand ho => ?_
  have hselector : (subscript expr <|> member expr).Covers fun ms s => ∀ ls n,
      Opens ls n → Opens (ls ++ ms) (Selector.apply n s) :=
    (Forms.orElse (subscript_forms h) (member_forms h)).mono
      fun _ _ hs _ _ hn => Selector.opens_apply hn hs
  refine (Covers.many_foldl hselector).bind fun ms ss hss => .pure ?_
  rw [List.append_nil]
  exact hss ls operand ho

/-! ## Operators -/

theorem negation_places (h : expr.Places) : (negation expr).Places := by
  have hbang : (do let start ← here; punct .bang; return start : Parser Nat).Covers fun ms p =>
      ∀ ls e, Opens ls e → Opens (ms ++ ls) (atOffset p "UnaryExpr" [("op", "!")] [e]) := by
    refine .here_bind fun p => Continues.start (P := ReadFrom AtFirst)
      (.next (.token _) fun _ => .pure fun ms hms hp ls e he => ?_)
    have hhead : (ms ++ ls).head? = ms.head? :=
      List.head?_append_of_ne_nil _ (ne_nil_of_fills hms (List.cons_ne_nil _ _))
    refine opens_atOffset (l := .unary) rfl (List.cons_ne_nil _ _) ?_ (hms.append (.single he.1))
      (hhead ▸ hp)
    exact forall_one_row (by simp [write])
  refine (Covers.many_foldr hbang).bind fun ms starts hopens => (selection_places h).bind
    fun ls n hn => .pure ?_
  rw [List.append_nil]
  exact hopens ls n hn

/-- An operator is written as its sign. -/
theorem operator_forms (op : BinaryOp) {P : List Lexeme → RawNode → Prop} :
    Forms P (operator op.punct) (fun o => (operatorTokens o).map some) fun _ => [] := by
  refine Continues.start (P := P) (.next (.token _) fun _ => .pure fun ls hls => ?_)
  rw [op.text_punct]
  simpa using hls

theorem leftGrouped_places {operand : Parser RawNode} {op : Parser String} (h : operand.Places)
    (hop : Forms (ReadFrom AtFirst) op (fun o => (operatorTokens o).map some) fun _ => []) :
    (leftGrouped operand op).Places := by
  have hpair : Forms (ReadFrom AtFirst) (do let o ← op; let e ← operand; return (o, e))
      (fun r => (operatorTokens r.1).map some ++ [none]) fun r => [r.2] :=
    Continues.start (.next hop fun o => .next (.node h.covers) fun e => .pure fun ls hls => hls)
  refine h.bind fun ls first hfirst => ?_
  have hmore := hpair.mono (R := fun ms r => ∀ ls n, Opens ls n →
      Opens (ls ++ ms) (n.inheritOffset "BinaryExpr" [("op", r.1)] [n, r.2])) (by
    rintro ms ⟨o, e⟩ hr ls n hn
    refine opens_inheritOffset (l := .binary) rfl ?_ hn hr
    have hwrite (cs : List RawNode) (a b : List Token) :
        (plain .binary [("op", o)] cs).write [a, b] = a ++ (operatorTokens o ++ b) := by
      simp [write, operatorTokens]
    exact forall_two_rows (by simp [hwrite]))
  refine (Covers.many_foldl hmore).bind fun ms rs hrs => .pure ?_
  rw [List.append_nil]
  exact hrs ls first hfirst

theorem expression_places : expression.Places := by
  refine Covers.tie fun expr h => ?_
  have hproduct := leftGrouped_places (negation_places h)
    (.orElse (operator_forms .mul) (operator_forms .div))
  have hsum := leftGrouped_places hproduct (.orElse (operator_forms .add) (operator_forms .sub))
  have hcompare : Forms (ReadFrom AtFirst) (choice (operator .lessEqual)
      [operator .greaterEqual, operator .less, operator .greater])
      (fun o => (operatorTokens o).map some) fun _ => [] := by
    refine Covers.choice ?_
    simp only [List.forall_mem_cons]
    exact ⟨operator_forms .le, operator_forms .ge, operator_forms .lt, operator_forms .gt, nofun⟩
  have hequality := leftGrouped_places (leftGrouped_places hsum hcompare)
    (.orElse (operator_forms .eq) (operator_forms .ne))
  exact leftGrouped_places (leftGrouped_places hequality (operator_forms .and))
    (operator_forms .or)

/-! ## Statements -/

/-- A condition is no node of its own. -/
theorem condition_forms : Forms (ReadFrom AtFirst) condition
    (fun _ => [some (.punct .openParen), none, some (.punct .closeParen)]) fun n => [n] :=
  .between (.node expression_places.covers)

theorem block_places (h : stmt.Places) : (block stmt).Places :=
  .here fun p => .next (.between (.nodes h.covers)) fun ss => made (l := .block) rfl rfl
    fun rows (hrows : rows.length = ss.length) => by
      simp [write, enclosed, fill_last_holes hrows]

theorem ifStmt_places (h : stmt.Places) : (ifStmt stmt).Places := by
  have helse : Forms (ReadFrom AtFirst) (do keyword .elseKw; stmt)
      (fun _ => [some (.keyword .elseKw), none]) fun n => [n] :=
    Continues.start (.next (.token _) fun _ => (Forms.node h.covers).mono fun _ _ hn ls hls =>
      hls.append hn)
  refine .here fun p => .next (.token _) fun _ => .next condition_forms fun c =>
    .next (.node h.covers) fun t => .next (.optional helse) fun e? => ?_
  cases e? with
  | none =>
    exact made (l := .ifElse) rfl rfl (forall_two_rows (by simp [write, enclosed]))
  | some e =>
    refine made (l := .ifElse) rfl rfl fun rows hrows => ?_
    obtain ⟨c, t, e, rfl⟩ := List.length_eq_three.mp hrows
    simp [write, enclosed]

theorem whileStmt_places (h : stmt.Places) : (whileStmt stmt).Places :=
  .here fun p => .next (.token _) fun _ => .next condition_forms fun c => .next (.node h.covers) fun b =>
    made (l := .whileLoop) rfl rfl (forall_two_rows (by simp [write, enclosed]))

theorem returnStmt_places : returnStmt.Places := by
  refine .here fun p => .next (.token _) fun _ => .next (.optional (.node expression_places.covers))
    fun e? => .next (.token _) fun _ => ?_
  cases e? with
  | none => exact made (l := .returning) rfl rfl (forall_no_row (by simp [write]))
  | some e => exact made (l := .returning) rfl rfl (forall_one_row (by simp [write]))

theorem assignStmt_places : assignStmt.Places :=
  .here fun p => .next .ident fun target => .next (.token _) fun _ =>
    .next (.node expression_places.covers) fun e => .next (.token _) fun _ =>
      made (l := .assign) rfl rfl (forall_one_row (by simp [write]))

theorem arrayAssignStmt_places : arrayAssignStmt.Places :=
  .here fun p => .next .ident fun target => .next (.between (.node expression_places.covers)) fun i =>
    .next (.token _) fun _ => .next (.node expression_places.covers) fun e => .next (.token _) fun _ =>
      made (l := .arrayAssign) rfl rfl (forall_two_rows (by simp [write, enclosed]))

theorem exprStmt_places : exprStmt.Places :=
  .here fun p => .next (.node expression_places.covers) fun e => .next (.token _) fun _ =>
    made (l := .exprStmt) rfl rfl (forall_one_row (by simp [write]))

theorem statement_places : statement.Places := by
  refine Covers.tie fun stmt h => .choice ?_
  simp only [List.forall_mem_cons]
  exact ⟨block_places h, ifStmt_places h, whileStmt_places h, returnStmt_places, assignStmt_places,
    arrayAssignStmt_places, exprStmt_places, nofun⟩

/-! ## Types -/

theorem basicType_covers : basicType.Covers (ReadFrom AtFirst) := by
  refine .satisfy fun l n h => ?_
  have hfills : Fills (ReadFrom AtFirst) [some l.token] [l] [] := .token .nil
  split at h <;> cases h <;> rename_i htoken <;> rw [htoken] at hfills <;>
    exact readFrom_typeNode (v := none) rfl (List.cons_ne_nil _ _) (forall_no_row rfl) hfills

theorem classType_covers : classType.Covers (ReadFrom AtFirst) :=
  Continues.start (.next .ident fun name => .pure fun _ hls =>
    readFrom_typeNode (v := some name) rfl (List.cons_ne_nil _ _) (forall_no_row rfl) hls)

theorem writtenType_covers : writtenType.Covers (ReadFrom AtFirst) := by
  have hsuffix : (optional (arraySuffix <|> varargsSuffix)).Covers fun ms kind? => ∀ ls t,
      ReadFrom AtFirst ls t → ReadFrom AtFirst (ls ++ ms)
        (kind?.elim t fun kind => typeNode kind [] [t]) := by
    refine .optional (.orElse ?_ ?_) fun ls _ ht => (List.append_nil ls).symm ▸ ht
    · refine Continues.start (P := ReadFrom AtFirst) (.next (.token _) fun _ => .next (.token _)
        fun _ => .pure fun ms hms ls t ht => ?_)
      exact readFrom_typeNode (v := none) rfl (List.cons_ne_nil _ _) (forall_one_row fun _ => rfl)
        (.part ht hms)
    · refine Continues.start (P := ReadFrom AtFirst) (.next (.token _) fun _ => .pure
        fun ms hms ls t ht => ?_)
      exact readFrom_typeNode (v := none) rfl (List.cons_ne_nil _ _) (forall_one_row fun _ => rfl)
        (.part ht hms)
  refine (Covers.orElse basicType_covers classType_covers).bind fun ls t ht =>
    hsuffix.bind fun ms kind? hk => .pure ?_
  rw [List.append_nil]
  cases kind? <;> exact hk ls t ht

/-! ## Declarations -/

/-- The names of a path have no parts. -/
theorem path_forms {P : List Lexeme → RawNode → Prop} :
    Forms P (sepBy1 ident (Parser.punct .dot))
      (fun names => ([.punct .dot].intercalate (names.map fun name => [.ident name])).map some)
      fun _ => [] := by
  refine (Forms.sepBy1 .ident).congr (fun names => ?_)
    fun names => List.flatMap_eq_nil_iff.mpr fun _ _ => rfl
  rw [← separated_map_some, List.map_map]
  rfl

/-- The path of an import is written as it was read if its names have no dots in them. -/
theorem importDecl_covers : importDecl.Covers fun ls n =>
    (∀ l ∈ ls, l.token.IsUndotted) → ReadFrom AtFirst ls n := by
  refine .here_bind fun p => Continues.start (P := ReadFrom AtFirst) (.next (.token _) fun _ =>
    .next_reads path_forms (.sepBy1 ident_reads) fun names ⟨hne, _⟩ => .next (.token _)
      fun _ => .pure fun ls hls hp hundotted => ?_)
  have hnames (name : String) (hname : name ∈ names) : (Token.ident name).IsUndotted := by
    have hrow := List.mem_map_of_mem (f := fun name => [Token.ident name]) hname
    have hpath := mem_intercalate hrow List.mem_cons_self [.punct .dot]
    obtain ⟨l, hl, htoken⟩ := hls.exists_mem (t := .ident name) (by simp [hpath])
    exact htoken ▸ hundotted l hl
  have hopens : Opens ls
      (atOffset p Label.importDecl.name [("value", String.intercalate "." names)] []) := by
    refine opens_atOffset rfl (List.cons_ne_nil _ _) (forall_no_row ?_) hls hp
    simp [write, Token.dotted_intercalate hne hnames]
  exact hopens.1

theorem varDecl_places : varDecl.Places :=
  .here fun p => .next (.node writtenType_covers) fun t => .next .ident fun name =>
    .next (.token _) fun _ => made (l := .varDecl) rfl rfl (forall_one_row (by simp [write]))

theorem param_places : param.Places :=
  .here fun p => .next (.node writtenType_covers) fun t => .next .ident fun name =>
    made (l := .param) rfl rfl (forall_one_row (by simp [write]))

/-- A reserved word that may be missing. -/
theorem flag_forms (k : Keyword) {P : List Lexeme → RawNode → Prop} :
    Forms P (optional (Parser.keyword k)) (fun u => if u.isSome then [some (.keyword k)] else [])
      fun _ => [] :=
  (Forms.optional (.token _)).congr (fun u => by cases u <;> rfl) fun u => by cases u <;> rfl

theorem methodDecl_places : methodDecl.Places := by
  have hbody : (varDecl <|> statement).Places := .orElse varDecl_places statement_places
  refine .here fun p => .next (flag_forms _) fun isPublic => .next (flag_forms _) fun isStatic =>
    .next_reads (.node writtenType_covers) writtenType_reads fun t ht => .next .ident fun name =>
    .next_reads (.between (.commaNodes param_places.covers)) (.between_spells (.sepBy param_reads))
      fun ps hps =>
    .next_reads (.between (.nodes hbody.covers)) (.between_spells (.many_spells bodyItem_reads))
      fun body hbody => ?_
  have hps : ∀ n ∈ ps.map unplaced, n.IsParam := List.forall_mem_map.mpr hps
  have hbody : ∀ n ∈ body.map unplaced, n.IsVarDecl ∨ n.IsStmt := List.forall_mem_map.mpr hbody
  have hchildren : (t :: ps ++ body).map unplaced =
      t.unplaced :: ps.map unplaced ++ body.map unplaced := by simp
  have hlength : (t :: ps ++ body).length = ps.length + body.length + 1 := by simp
  change Ends p _ (t :: ps ++ body) _
  refine made (l := .methodDecl) rfl (by simp) ?_
  rw [hchildren, hlength]
  refine forall_rows fun row rows rows' hrows hrows' => ?_
  rw [ht.write_methodDecl hps hbody _ _ _ _ (hrows.trans (List.length_map _).symm)]
  simp [enclosed, fill_commaHoles hrows, fill_last_holes hrows']

theorem classDecl_places : classDecl.Places := by
  have hmember : (varDecl <|> methodDecl).Places := .orElse varDecl_places methodDecl_places
  have hext : Forms (ReadFrom AtFirst) (do Parser.keyword .extendsKw; ident)
      (fun name => [some (.keyword .extendsKw), some (.ident name)]) fun _ => [] :=
    Continues.start (.next (.token _) fun _ => Forms.ident.mono fun _ _ h _ hls => hls.append h)
  have hsuper : Forms (ReadFrom AtFirst) (optional (do Parser.keyword .extendsKw; ident))
      (fun name? => (writeSuperclass name?).map some) fun _ => [] :=
    (Forms.optional hext).congr (fun name? => by cases name? <;> rfl)
      fun name? => by cases name? <;> rfl
  refine .here fun p => .next (.token _) fun _ => .next .ident fun name =>
    .next hsuper fun superclass => .next (.between (.nodes hmember.covers)) fun members =>
      made (l := .classDecl) ?_ rfl fun rows (hrows : rows.length = members.length) => ?_
  · cases superclass <;> rfl
  · simp [enclosed, fill_last_holes hrows]

/-- A program goes up to the end of the text, so its items fill all of the text. -/
theorem program_fills {s r : Input} {n : RawNode} (hs : ∀ l ∈ s.rest, l.token.IsUndotted)
    (hrun : program.run s = some (n, r)) : ∃ items,
      n = atOffset s.span.start "Program" [] items ∧
      Fills (ReadFrom AtFirst) (holes items.length) s.rest items := by
  have hitem : (importDecl <|> classDecl).Covers fun ls n =>
      (∀ l ∈ ls, l.token.IsUndotted) → ReadFrom AtFirst ls n :=
    .orElse importDecl_covers (classDecl_places.mono fun _ _ h _ => h.1)
  simp only [program, run_bind, run_here, Option.bind_some, Option.bind_eq_some_iff,
    Prod.exists] at hrun
  obtain ⟨items, s', hitems, u, s'', hend, hlast⟩ := hrun
  cases hlast
  obtain ⟨ls, hls, hfills⟩ := Forms.nodes hitem s items s' hitems
  rw [run_endOfInput] at hend
  split at hend
  · rename_i hnil
    rw [List.map_eq_nil_iff.mp hnil, List.append_nil] at hls
    subst hls
    exact ⟨items, rfl, hfills.mono fun _ _ ps hps h => h fun l hl => hs l (hps hl)⟩
  · cases hend

end Grammar

end MiniJava
