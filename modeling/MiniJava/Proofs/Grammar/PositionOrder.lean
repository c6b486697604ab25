import MiniJava.Grammar
import MiniJava.Proofs.Grammar.FirstTokens
import MiniJava.Proofs.Text.Positions
import MiniJava.Proofs.Tree.Numbering

/-!
# Positions of the tree of a text

It is known of each node that the grammar makes which row of the tokens it was read from, and that
its offset is that of the first token of its row. `RawNode.resolvePositions` puts the position of
the offset in its place, so each node has the position that the lines of the text give to the start
of its row; only a program can have an empty row, and then it has the position of the end of the
text (`RawNode.Located`).

A node stands in front of its parts in `RawNode.preorder`, its row starts no later than theirs, and
the rows of its parts come one behind the other. So the offsets along this walk do not decrease
(`RawNode.Walks`). Neither do the positions, as far as lines and columns are 32-bit words: behind
`2^32` bytes of one line the columns start again (`RawNode.decreasing_of_long_line`).
-/

namespace MiniJava

open MiniJava.Parser

/-! ## Tokens of a text -/

/-- The offset where the row starts: that of its first token, or of the end of the text if there is
none. -/
def Lines.startOf (lines : Lines) (ls : List Lexeme) : Nat :=
  (ls.head?.map (·.span.start)).getD lines.size

/-- The tokens start one behind the other. -/
abbrev Lexeme.Ordered (ls : List Lexeme) : Prop :=
  ls.Pairwise fun l m => l.span.start ≤ m.span.start

open Lexeme (Ordered)

section Tokens

variable {ls : List Lexeme} {l m : Lexeme}

theorem start_le_of_mem (h : Ordered (l :: ls)) (hm : m ∈ l :: ls) :
    l.span.start ≤ m.span.start := by
  rcases List.mem_cons.mp hm with rfl | hm
  · exact Nat.le_refl _
  · exact (List.pairwise_cons.mp h).1 m hm

theorem Lines.startOf_le (lines : Lines) (h : Ordered ls) (hm : m ∈ ls) :
    lines.startOf ls ≤ m.span.start := by
  cases ls with
  | nil => cases hm
  | cons l ls => exact start_le_of_mem h hm

theorem ordered_lexemes (text : List Char) : Ordered (lexemes (pieces 0 text)) := by
  refine (lexemes_ordered 0 text).imp_of_mem fun {l m} hl _ h => ?_
  obtain ⟨p, -, hspan⟩ := exists_piece_of_mem_lexemes hl
  exact Nat.le_trans (hspan ▸ Nat.le_add_right _ _) h

/-- What a text starts with is its first token, or its end. -/
theorem Input.start_ofPieces (lines : Lines) (ps : List Piece) :
    (Input.ofPieces lines.size ps).span.start = lines.startOf (lexemes ps) := by
  unfold Input.span Lines.startOf
  split <;> rename_i hrest <;> change lexemes ps = _ at hrest <;> rw [hrest] <;> rfl

end Tokens

namespace RawNode

/-! ## Positions in the place of offsets -/

/-- The attributes of the node hold the position. -/
def StandsAt (n : RawNode) (p : Position) : Prop :=
  n.get? "line" = some (toString p.line) ∧ n.get? "col" = some (toString p.column)

/-- The attributes of the node hold the offset. -/
def HasOffset (n : RawNode) (offset : Nat) : Prop := n.get? "offset" = some (toString offset)

section Resolve

variable {lines : Lines} {n : RawNode} {p : Position} {offset : Nat}

/-- What is held is read back. -/
theorem StandsAt.position_eq (h : n.StandsAt p) : n.position = p := by
  rw [position]
  dsimp only
  rw [h.1, h.2, Option.bind_some, Option.bind_some, readWord?_toString, readWord?_toString]
  rfl

theorem get?_resolvePositions (lines : Lines) (n : RawNode) (key : String) :
    (n.resolvePositions lines).get? key = (n.attributes.resolvePosition lines).get? key := by
  rw [resolvePositions_eq]
  rfl

/-- No node keeps its offset. -/
theorem offset_resolvePositions (lines : Lines) (n : RawNode) :
    (n.resolvePositions lines).get? "offset" = none := by
  rw [get?_resolvePositions]
  unfold Attributes.resolvePosition
  split
  · assumption
  dsimp only
  split <;> simp

/-- A node without an offset keeps what it has. -/
theorem get?_resolvePositions_of_none (h : n.get? "offset" = none) (key : String) :
    (n.resolvePositions lines).get? key = n.get? key := by
  have hattributes : n.attributes.get? "offset" = none := h
  rw [get?_resolvePositions, Attributes.resolvePosition, hattributes]
  rfl

/-- A node with an offset has its position afterwards. -/
theorem HasOffset.standsAt (h : n.HasOffset offset) :
    (n.resolvePositions lines).StandsAt (lines.position offset) := by
  have hattributes : n.attributes.get? "offset" = some (toString offset) := h
  have hresolve : n.attributes.resolvePosition lines =
      ((n.attributes.remove "offset").insert "line" (toString (lines.position offset).line)).insert
        "col" (toString (lines.position offset).column) := by
    rw [Attributes.resolvePosition, hattributes]
    simp only [readNatural?_toString]
  constructor <;> rw [get?_resolvePositions, hresolve] <;> simp

theorem write_resolvePositions (lines : Lines) (n : RawNode) (rows : List (List Token)) :
    (n.resolvePositions lines).write rows = n.write rows := by
  rw [← write_unplaced, unplaced_resolvePositions, write_unplaced]

/-- The rows that the nodes were read from stay the same. -/
theorem ReadFrom.resolvePositions {P Q : List Lexeme → RawNode → Prop} {ls : List Lexeme}
    (h : ReadFrom P ls n) (hPQ : ∀ ms m, P ms m → Q ms (m.resolvePositions lines)) :
    ReadFrom Q ls (n.resolvePositions lines) := by
  induction n using RawNode.induction generalizing ls with
  | step n ih =>
    cases h with
    | node written parts here =>
      have hparts := parts.map fun c hc ps h => ih c hc h
      rw [← resolvePositions_children] at hparts
      refine .node (fun rows hrows => ?_) hparts (hPQ ls n here)
      rw [resolvePositions_children, List.length_map] at hrows
      rw [write_resolvePositions, written rows hrows]

/-- The node has the position where its row starts, unless it is a written type: that has none.
There is no node for an empty row but a program without parts. -/
structure Located (lines : Lines) (ls : List Lexeme) (n : RawNode) : Prop where
  no_offset : n.get? "offset" = none
  no_place : isTypeKind n.kind = true → n.get? "line" = none ∧ n.get? "col" = none
  place : isTypeKind n.kind = false → n.StandsAt (lines.position (lines.startOf ls))
  of_nil : ls = [] → n.kind = "Program" ∧ n.children = []

theorem AtFirst.located {ls : List Lexeme} (h : AtFirst ls n) :
    Located lines ls (n.resolvePositions lines) where
  no_offset := offset_resolvePositions lines n
  no_place htype := by
    rw [resolvePositions_kind] at htype
    obtain ⟨hoffset, hplace⟩ := h.no_place htype
    rwa [get?_resolvePositions_of_none hoffset, get?_resolvePositions_of_none hoffset]
  place htype := by
    rw [resolvePositions_kind] at htype
    obtain ⟨l, ms, rfl⟩ := List.exists_cons_of_ne_nil h.ne_nil
    have hoffset : n.HasOffset l.span.start := h.place htype l rfl
    exact hoffset.standsAt
  of_nil hnil := absurd hnil h.ne_nil

/-- Every node that was read has the position of some offset. -/
theorem ReadFrom.exists_position_eq {ls : List Lexeme} (h : ReadFrom (Located lines) ls n) :
    ∀ r ∈ n.postorder, ∃ offset, r.position = lines.position offset := by
  induction n using RawNode.induction generalizing ls with
  | step n ih =>
    cases h with
    | node written parts here =>
      rw [postorder_eq]
      refine List.forall_mem_append.mpr ⟨fun r hr => ?_, fun r hr => ?_⟩
      · obtain ⟨c, hc, hr⟩ := List.mem_flatMap.mp (postorderAll_eq_flatMap _ ▸ hr)
        obtain ⟨ps, hps⟩ := parts.exists_row hc
        exact ih c hc hps r hr
      · split at hr
        · cases hr
        · rename_i htype
          rw [List.mem_singleton.mp hr]
          exact ⟨_, (here.place (Bool.eq_false_iff.mpr htype)).position_eq⟩

end Resolve

/-! ## The walk -/

mutual

/-- The nodes of a tree that stand for no written type, each in front of its children. -/
def preorder : RawNode → List RawNode
  | ⟨kind, attributes, children⟩ =>
    (if isTypeKind kind then [] else [⟨kind, attributes, children⟩]) ++ preorderAll children

/-- The nodes of several trees that stand for no written type. -/
def preorderAll : List RawNode → List RawNode
  | [] => []
  | n :: ns => preorder n ++ preorderAll ns

end

theorem preorder_eq (n : RawNode) :
    n.preorder = (if isTypeKind n.kind then [] else [n]) ++ preorderAll n.children := by
  cases n
  rfl

theorem preorderAll_eq_flatMap (ns : List RawNode) : preorderAll ns = ns.flatMap preorder := by
  induction ns with
  | nil => rfl
  | cons n ns ih => rw [preorderAll, ih, List.flatMap_cons]

/-- The walk through the tree with its positions leads along the same nodes. -/
theorem preorder_resolvePositions (lines : Lines) (n : RawNode) :
    (n.resolvePositions lines).preorder = n.preorder.map (resolvePositions lines) := by
  induction n using RawNode.induction with
  | step n ih =>
    rw [preorder_eq, preorder_eq, resolvePositions_kind, resolvePositions_children, List.map_append,
      preorderAll_eq_flatMap, preorderAll_eq_flatMap, List.flatMap_map, List.map_flatMap,
      List.flatMap_congr ih]
    split <;> rfl

/-- The nodes have the offsets of tokens of the row, each not in front of the one before. -/
def Walks (ls : List Lexeme) (ns : List RawNode) : Prop :=
  ∃ ms ⊆ ls, List.Forall₂ (fun n m => n.HasOffset m.span.start) ns ms ∧ Ordered ms

section Walks

variable {ls ls' : List Lexeme} {ns ns' : List RawNode} {l : Lexeme} {n : RawNode}

theorem Walks.mono (h : Walks ls ns) (hls : ls ⊆ ls') : Walks ls' ns := by
  obtain ⟨ms, hms, h⟩ := h
  exact ⟨ms, List.Subset.trans hms hls, h⟩

/-- A walk goes on in a row behind. -/
theorem Walks.append (h : Walks ls ns) (h' : Walks ls' ns') (hls : Ordered (ls ++ ls')) :
    Walks (ls ++ ls') (ns ++ ns') := by
  obtain ⟨ms, hms, hstand, hordered⟩ := h
  obtain ⟨ms', hms', hstand', hordered'⟩ := h'
  refine ⟨ms ++ ms', List.append_subset.mpr ⟨?_, ?_⟩, List.rel_append hstand hstand',
    List.pairwise_append.mpr ⟨hordered, hordered', fun l hl l' hl' => ?_⟩⟩
  · exact List.subset_append_of_subset_left _ hms
  · exact List.subset_append_of_subset_right _ hms'
  · exact (List.pairwise_append.mp hls).2.2 l (hms hl) l' (hms' hl')

/-- A node at the first token stands in front of all others. -/
theorem Walks.cons (h : Walks (l :: ls) ns) (hn : n.HasOffset l.span.start)
    (hls : Ordered (l :: ls)) : Walks (l :: ls) (n :: ns) := by
  obtain ⟨ms, hms, hstand, hordered⟩ := h
  exact ⟨l :: ms, List.cons_subset.mpr ⟨List.mem_cons_self, hms⟩, .cons hn hstand,
    hordered.cons fun m hm => start_le_of_mem hls (hms hm)⟩

/-- Parts one behind the other are walked through if each of them is. -/
theorem walks_of_fills {R : List Lexeme → RawNode → Prop} {frame : List (Option Token)}
    (h : Fills R frame ls ns) (hR : ∀ n ∈ ns, ∀ ps, R ps n → Ordered ps → Walks ps n.preorder)
    (hls : Ordered ls) : Walks ls (preorderAll ns) := by
  induction h with
  | nil => exact ⟨[], List.Subset.refl _, .nil, .nil⟩
  | token _ ih => exact (ih hR hls.of_cons).mono (List.subset_cons_self _ _)
  | part hn _ ih =>
    obtain ⟨hordered, hordered', -⟩ := List.pairwise_append.mp hls
    obtain ⟨hRn, hRns⟩ := List.forall_mem_cons.mp hR
    exact (hRn _ hn hordered).append (ih hRns hordered') hls

theorem walks_of_readFrom (h : ReadFrom AtFirst ls n) (hls : Ordered ls) :
    Walks ls n.preorder := by
  induction n using RawNode.induction generalizing ls with
  | step n ih =>
    cases h with
    | node written parts here =>
      have hparts := walks_of_fills parts (fun c hc ps h => ih c hc h) hls
      rw [preorder_eq]
      cases htype : isTypeKind n.kind with
      | true => exact hparts
      | false =>
        obtain ⟨l, ms, rfl⟩ := List.exists_cons_of_ne_nil here.ne_nil
        exact hparts.cons (here.place htype l rfl) hls

end Walks

/-! ## Programs -/

section Program

variable {ls : List Lexeme} {items : List RawNode}

/-- The node of a program is at the start of the text, and at its end if the text has no tokens. -/
theorem readFrom_program (lines : Lines)
    (hfills : Fills (ReadFrom AtFirst) (holes items.length) ls items) :
    ReadFrom (Located lines) ls
      ((atOffset (lines.startOf ls) "Program" [] items).resolvePositions lines) := by
  have hoffset : (atOffset (lines.startOf ls) "Program" [] items).HasOffset (lines.startOf ls) :=
    get?_place_offset _ _ _ _
  have hparts : Fills (ReadFrom (Located lines)) (holes items.length) ls
      ((atOffset (lines.startOf ls) "Program" [] items).resolvePositions lines).children := by
    rw [resolvePositions_children]
    exact hfills.map fun c _ ps hc => hc.resolvePositions fun _ _ h => h.located
  refine .node (fun rows hrows => ?_) hparts {
    no_offset := offset_resolvePositions _ _
    no_place := nofun
    place := fun _ => hoffset.standsAt
    of_nil := fun hnil => ⟨rfl, ?_⟩ }
  · rw [resolvePositions_children, List.length_map] at hrows
    have hfill : fill (holes items.length ++ []) rows = rows.flatten ++ fill [] [] :=
      fill_last_holes hrows
    rw [List.append_nil, fill_nil, List.append_nil] at hfill
    exact (write_resolvePositions lines _ rows).trans hfill.symm
  · have hitems : items = [] := by
      by_contra hitems
      exact ne_nil_of_fills hfills (by simpa [holes] using hitems) hnil
    rw [resolvePositions_children, hitems]
    rfl

/-- The offsets along a walk through a program start where the text does. -/
theorem exists_offsets_program (lines : Lines)
    (hfills : Fills (ReadFrom AtFirst) (holes items.length) ls items) (hordered : Ordered ls) :
    ∃ offsets : List Nat, offsets.Pairwise (· ≤ ·) ∧ List.Forall₂ HasOffset
      (atOffset (lines.startOf ls) "Program" [] items).preorder offsets := by
  obtain ⟨ms, hms, hoffsets, hms'⟩ :=
    walks_of_fills hfills (fun _ _ _ => walks_of_readFrom) hordered
  refine ⟨lines.startOf ls :: ms.map (·.span.start), .cons ?_ (List.pairwise_map.mpr hms'),
    .cons (get?_place_offset _ _ _ _) (List.forall₂_map_right_iff.mpr hoffsets)⟩
  exact List.forall_mem_map.mpr fun m hm => lines.startOf_le hordered (hms hm)

end Program

section Parse

variable {source : String} {n : RawNode}

/-- The tree of a text is that of its items, which fill it. -/
theorem exists_fills_of_parse (h : parse source = .ok n) : ∃ items,
    Fills (ReadFrom AtFirst) (holes items.length) (lexemes (pieces 0 source.toList)) items ∧
      n = (atOffset ((Lines.ofText source.toList).startOf (lexemes (pieces 0 source.toList)))
        "Program" [] items).resolvePositions (.ofText source.toList) := by
  obtain ⟨tree, hparse, rfl⟩ := exists_parseInput_of_parse h
  obtain ⟨r, hrun⟩ := run_program_of_parseInput hparse
  have hundotted := List.forall_mem_map.mp
    (Input.ofPieces_isUndotted (byteLength source.toList) source.toList)
  obtain ⟨items, rfl, hfills⟩ := Grammar.program_fills hundotted hrun
  exact ⟨items, hfills, by rw [← Input.start_ofPieces]; rfl⟩

/-- The nodes of the tree of a text are in their places. -/
theorem readFrom_of_parse (h : parse source = .ok n) :
    ReadFrom (Located (.ofText source.toList)) (lexemes (pieces 0 source.toList)) n := by
  obtain ⟨items, hfills, rfl⟩ := exists_fills_of_parse h
  exact readFrom_program _ hfills

/-- **Nodes stand at their first tokens.** The tree of a text was read from all of its tokens, and
of each node in it some row of these is known that it was read from. A node that is no written type
has the line and the column where this row starts; written types have neither, and no node has an
offset any more. In a walk through the tree, from each node to its children, the offsets whose
positions are met do not decrease, and neither do the positions if the lines and columns of the
text are 32-bit words. -/
theorem located_of_parse (source : String) (n : RawNode) (h : parse source = .ok n) :
    let lines := Lines.ofText source.toList
    ReadFrom (Located lines) (lexemes (pieces 0 source.toList)) n ∧
      ∃ offsets : List Nat, offsets.Pairwise (· ≤ ·) ∧
        List.Forall₂ StandsAt n.preorder (offsets.map lines.position) ∧
        (lines.Fit → (offsets.map lines.position).Pairwise fun p q => ¬ q.Before p) := by
  intro lines
  refine ⟨readFrom_of_parse h, ?_⟩
  obtain ⟨items, hfills, rfl⟩ := exists_fills_of_parse h
  obtain ⟨offsets, hordered, hoffsets⟩ :=
    exists_offsets_program lines hfills (ordered_lexemes source.toList)
  refine ⟨offsets, hordered, ?_, fun hfit => ?_⟩
  · rw [preorder_resolvePositions, List.forall₂_map_left_iff, List.forall₂_map_right_iff]
    exact hoffsets.imp fun _ _ h => h.standsAt
  · exact List.pairwise_map.mpr (hordered.imp fun hle => Lines.not_before_position hfit hle)

/-- Operations and selections stand where their first operand does, a negation where its sign
does. -/
theorem located_of_parse_negation :
    let source := "class A\n{ int f() { return !b.g(1)[0] < (2); } }"
    let lines := Lines.ofText source.toList
    let places := [("Program", 1, 1), ("ClassDecl", 1, 1), ("MethodDecl", 2, 3),
      ("ReturnStmt", 2, 13), ("BinaryExpr", 2, 20), ("UnaryExpr", 2, 20),
      ("ArrayAccessExpr", 2, 21), ("MethodCallExpr", 2, 21), ("VarRef", 2, 21),
      ("IntegerLiteral", 2, 25), ("IntegerLiteral", 2, 28), ("ParenthesisExpr", 2, 33),
      ("IntegerLiteral", 2, 34)]
    lines.Fit ∧ ∃ n, parse source = .ok n ∧
      n.preorder.map (fun m => (m.kind, m.position.line, m.position.column)) = places ∧
      ReadFrom (Located lines) (lexemes (pieces 0 source.toList)) n ∧
      ∃ offsets : List Nat, List.Forall₂ StandsAt n.preorder (offsets.map lines.position) ∧
        (offsets.map lines.position).Pairwise fun p q => ¬ q.Before p := by
  intro source lines places
  have hfit : lines.Fit := Lines.fit_of_byteLength_lt (by decide +kernel)
  obtain ⟨n, hn, hplaces⟩ := exists_eq_ok_of_any (x := parse source)
    (p := fun n => n.preorder.map (fun m => (m.kind, m.position.line, m.position.column)) == places)
    (by decide +kernel)
  obtain ⟨hread, offsets, -, hstand, hordered⟩ := located_of_parse source n hn
  exact ⟨hfit, n, hn, beq_iff_eq.mp hplaces, hread, offsets, hstand, hordered hfit⟩

/-- A program without a token stands at the end of the text. -/
example : (parse " \n ").toOption.map (·.preorder.map (·.position)) = some [⟨2, 2⟩] := by
  decide +kernel

end Parse

/-! ### A long line -/

end RawNode

/-- Blanks in front of a text are one piece. -/
theorem pieces_indented (n : Nat) {cs : List Char} (h : ∀ c ∈ cs.head?, isBlank c = false) :
    pieces 0 (indented (n + 1) cs) =
      ⟨.blank, List.replicate (n + 1) ' ', 0⟩ :: pieces (n + 1) cs := by
  have hrun : (indented n cs).takeWhile isBlank = List.replicate n ' ' := by
    rw [indented, List.takeWhile_append_of_pos fun c hc => List.eq_of_mem_replicate hc ▸ rfl]
    cases cs with
    | nil => exact List.append_nil _
    | cons c cs =>
      rw [List.takeWhile_cons_of_neg (Bool.eq_false_iff.mp (h c rfl)), List.append_nil]
  have hfirst : firstPiece ' ' (indented n cs) = (.blank, n) := by
    have hblank : firstPiece ' ' (indented n cs) =
      (.blank, ((indented n cs).takeWhile isBlank).length) := if_pos rfl
    rw [hblank, hrun, List.length_replicate]
  have hlength : byteLength (List.replicate (n + 1) ' ') = n + 1 := by
    have hindented := byteLength_indented (n + 1) []
    rwa [indented, List.append_nil] at hindented
  change pieces 0 (' ' :: indented n cs) = _
  rw [pieces]
  simp only [hfirst]
  have htake : (indented n cs).take n = List.replicate n ' ' :=
    List.take_left' List.length_replicate
  have hdrop : (indented n cs).drop n = cs := List.drop_left' List.length_replicate
  rw [htake, hdrop, ← List.replicate_succ, hlength, Nat.zero_add]

/-- Behind blanks a text is read as it is without them, at another offset. -/
theorem parse_indented {n : Nat} {cs : List Char} {tree : RawNode}
    (h : ∀ c ∈ cs.head?, isBlank c = false) (hknown : unknownPieces (pieces (n + 1) cs) = [])
    (hparse : parseInput (.ofPieces (n + 1 + byteLength cs) (pieces (n + 1) cs)) = .ok tree) :
    parse (String.ofList (indented (n + 1) cs)) =
      .ok (tree.resolvePositions ⟨lineStartsFrom (n + 1) cs, n + 1 + byteLength cs⟩) := by
  have hunknown : unknownPieces (pieces 0 (indented (n + 1) cs)) = [] := by
    rw [pieces_indented n h]
    exact hknown
  have hinput : Input.ofPieces (byteLength (indented (n + 1) cs)) (pieces 0 (indented (n + 1) cs)) =
      .ofPieces (n + 1 + byteLength cs) (pieces (n + 1) cs) := by
    rw [byteLength_indented, pieces_indented n h]
    rfl
  unfold parse
  simp only [String.toList_ofList, hunknown, hinput, hparse, Lines.ofText_indented]

namespace RawNode

/-- A class that ends behind the first `2^32` bytes of its line: its field stands in front of it. -/
theorem decreasing_of_long_line :
    let source := String.ofList (indented 4294967291 "class A\x7bint a;\x7d".toList)
    ∃ n, parse source = .ok n ∧ n.preorder.map (fun m => (m.kind, m.position)) =
        [("Program", ⟨1, 4294967292⟩), ("ClassDecl", ⟨1, 4294967292⟩), ("VarDecl", ⟨1, 4⟩)] ∧
      ¬ (n.preorder.map position).Pairwise fun p q => ¬ q.Before p := by
  intro source
  obtain ⟨tree, htree, hplaces⟩ := exists_eq_ok_of_any
    (x := parseInput (.ofPieces 4294967306 (pieces 4294967291 "class A\x7bint a;\x7d".toList)))
    (p := fun tree => (tree.resolvePositions ⟨[], 4294967306⟩).preorder.map
      (fun m => (m.kind, m.position)) ==
        [("Program", ⟨1, 4294967292⟩), ("ClassDecl", ⟨1, 4294967292⟩), ("VarDecl", ⟨1, 4⟩)])
    (by decide +kernel)
  have hparse : parse source = .ok (tree.resolvePositions ⟨[], 4294967306⟩) :=
    parse_indented (n := 4294967290) (by rintro c ⟨⟩; rfl) (by decide +kernel) htree
  have hplaces := beq_iff_eq.mp hplaces
  refine ⟨_, hparse, hplaces, fun h => ?_⟩
  have hpositions := congrArg (List.map Prod.snd) hplaces
  rw [List.map_map] at hpositions
  change List.map position _ = _ at hpositions
  rw [hpositions] at h
  revert h
  unfold Position.Before
  decide

end RawNode

end MiniJava
