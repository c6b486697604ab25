import MiniJava.Grammar
import MiniJava.Tree.Kind

/-!
# Raw trees in concrete syntax

`RawNode.tokens` writes a raw tree as a program: the way back from what the grammar reads. A node is
written around its parts (`RawNode.write`), and brackets stand where the tree has a node for them
and nowhere else. Positions do not matter, so they can be dropped first (`RawNode.unplaced`).
-/

namespace MiniJava

/-! ## Rows of tokens -/

namespace Token

/-- What stands between two signs. -/
def enclosed (left right : Punct) (ts : List Token) : List Token :=
  .punct left :: (ts ++ [.punct right])

/-- Rows of tokens with commas between each two. -/
def commaSeparated (rows : List (List Token)) : List Token :=
  [Token.punct .comma].intercalate rows

/-- The row begins with a token of this kind. -/
def BeginsWith (f : Token → Bool) (ts : List Token) : Prop := ∃ t us, ts = t :: us ∧ f t = true

theorem BeginsWith.append {f : Token → Bool} {ts : List Token} (h : BeginsWith f ts)
    (us : List Token) : BeginsWith f (ts ++ us) := by
  obtain ⟨t, vs, rfl, ht⟩ := h
  exact ⟨t, vs ++ us, rfl, ht⟩

theorem BeginsWith.mono {f g : Token → Bool} {ts : List Token} (h : BeginsWith f ts)
    (hfg : ∀ t, f t = true → g t = true) : BeginsWith g ts := by
  obtain ⟨t, us, hts, ht⟩ := h
  exact ⟨t, us, hts, hfg t ht⟩

theorem BeginsWith.ne_nil {f : Token → Bool} {ts : List Token} (h : BeginsWith f ts) : ts ≠ [] := by
  obtain ⟨t, us, rfl, -⟩ := h
  exact List.cons_ne_nil t us

theorem BeginsWith.of_mem_head? {f : Token → Bool} {ts : List Token} (h : BeginsWith f ts)
    {t : Token} (ht : t ∈ ts.head?) : f t = true := by
  obtain ⟨t, us, rfl, hf⟩ := h
  cases ht
  exact hf

/-- The identifiers of a dotted path, with the dots. -/
def dotted (path : String) : List Token :=
  [Token.punct .dot].intercalate
    ((path.toList.splitOn '.').map fun name => [.ident (.ofList name)])

/-- An identifier has no dot in it. -/
def IsUndotted : Token → Prop
  | ident name => '.' ∉ name.toList
  | _ => True

theorem dotted_intercalate {names : List String} (hne : names ≠ [])
    (h : ∀ name ∈ names, (ident name).IsUndotted) :
    dotted (String.intercalate "." names) =
      [Token.punct .dot].intercalate (names.map fun name => [.ident name]) := by
  have hsplit : (String.intercalate "." names).toList.splitOn '.' = names.map String.toList := by
    rw [String.toList_intercalate]
    exact List.splitOn_intercalate '.' (List.forall_mem_map.mpr h) (by simpa using hne)
  rw [dotted, hsplit, List.map_map]
  simp [Function.comp_def]

end Token

/-- The sign for an operator. -/
def BinaryOp.punct : BinaryOp → Punct
  | add => .plus
  | sub => .minus
  | mul => .star
  | div => .slash
  | lt => .less
  | gt => .greater
  | le => .lessEqual
  | ge => .greaterEqual
  | eq => .equal
  | ne => .notEqual
  | and => .andAnd
  | or => .orOr

theorem BinaryOp.text_punct (op : BinaryOp) : op.punct.text = op.symbol := by
  cases op <;> rfl

namespace RawNode

open Token

/-! ## Writing -/

/-- The text of an attribute; a missing one is empty. -/
def word (n : RawNode) (key : String) : String := (n.get? key).getD ""

/-- How a written type is written again. -/
def writeType (n : RawNode) (parts : List (List Token)) : List Token :=
  match n.kind, parts with
  | "IntType", _ => [.keyword .intKw]
  | "BooleanType", _ => [.keyword .booleanKw]
  | "StringType", _ => [.keyword .stringKw]
  | "VoidType", _ => [.keyword .voidKw]
  | "ClassType", _ => [.ident (n.word "value")]
  | "ArrayType", [element] => element ++ [.punct .openBracket, .punct .closeBracket]
  | "VarArgsType", [element] => element ++ [.punct .ellipsis]
  | _, _ => []

/-- A parameter of a method. -/
def isParam (n : RawNode) : Bool := n.kind == Label.param.name

/-- How a method is written: the type is its first part, and the parameters come next. -/
def writeMethod (n : RawNode) (type : List Token) (parts : List (List Token)) : List Token :=
  let params := n.children.countP isParam
  (if n.flag "isPublic" then [.keyword .publicKw] else []) ++
    ((if n.flag "isStatic" then [.keyword .staticKw] else []) ++
      (type ++ .ident (n.word "methodName") ::
        (enclosed .openParen .closeParen (commaSeparated (parts.take params)) ++
          enclosed .openBrace .closeBrace (parts.drop params).flatten)))

theorem writeMethod_append (n : RawNode) (type : List Token) {params body : List (List Token)}
    (h : n.children.countP isParam = params.length) :
    n.writeMethod type (params ++ body) =
      (if n.flag "isPublic" then [.keyword .publicKw] else []) ++
        ((if n.flag "isStatic" then [.keyword .staticKw] else []) ++
          (type ++ .ident (n.word "methodName") ::
            (enclosed .openParen .closeParen (commaSeparated params) ++
              enclosed .openBrace .closeBrace body.flatten))) := by
  rw [writeMethod, h, List.take_left, List.drop_left]

/-- How the superclass of a class is written. -/
def writeSuperclass : Option String → List Token
  | some name => [.keyword .extendsKw, .ident name]
  | none => []

/-- How a node is written when its parts are written like this. -/
def write (n : RawNode) (parts : List (List Token)) : List Token :=
  match Label.ofName? n.kind, parts with
  | some .program, items => items.flatten
  | some .importDecl, _ => .keyword .importKw :: (dotted (n.word "value") ++ [.punct .semicolon])
  | some .classDecl, members =>
    .keyword .classKw :: .ident (n.word "name") ::
      (writeSuperclass (n.get? "ext") ++ enclosed .openBrace .closeBrace members.flatten)
  | some .varDecl, [type] => type ++ [.ident (n.word "name"), .punct .semicolon]
  | some .methodDecl, type :: parts => n.writeMethod type parts
  | some .param, [type] => type ++ [.ident (n.word "name")]
  | some .assign, [value] =>
    .ident (n.word "value") :: .punct .assign :: (value ++ [.punct .semicolon])
  | some .arrayAssign, [index, value] =>
    .ident (n.word "value") :: (enclosed .openBracket .closeBracket index ++
      .punct .assign :: (value ++ [.punct .semicolon]))
  | some .returning, value => .keyword .returnKw :: (value.flatten ++ [.punct .semicolon])
  | some .ifElse, [condition, thenBranch] =>
    .keyword .ifKw :: (enclosed .openParen .closeParen condition ++ thenBranch)
  | some .ifElse, [condition, thenBranch, elseBranch] =>
    .keyword .ifKw :: (enclosed .openParen .closeParen condition ++
      (thenBranch ++ .keyword .elseKw :: elseBranch))
  | some .whileLoop, [condition, body] =>
    .keyword .whileKw :: (enclosed .openParen .closeParen condition ++ body)
  | some .block, statements => enclosed .openBrace .closeBrace statements.flatten
  | some .exprStmt, [e] => e ++ [.punct .semicolon]
  | some .binary, [left, right] =>
    left ++ ((BinaryOp.ofSymbol? (n.word "op")).toList.map (fun op => .punct op.punct) ++ right)
  | some .unary, [operand] => .punct .bang :: operand
  | some .varRef, _ => [.ident (n.word "value")]
  | some .intLit, _ => [.integer (n.word "value")]
  | some .boolLit, _ => [.ofName (n.word "value")]
  | some .this, _ => [.keyword .thisKw]
  | some .newObject, _ =>
    [.keyword .newKw, .ident (n.word "value"), .punct .openParen, .punct .closeParen]
  | some .newArray, [size] =>
    .keyword .newKw :: .ofName (n.word "value") :: enclosed .openBracket .closeBracket size
  | some .arrayLit, elements => enclosed .openBracket .closeBracket (commaSeparated elements)
  | some .arrayAccess, [array, index] => array ++ enclosed .openBracket .closeBracket index
  | some .arrayLength, [array] => array ++ [.punct .dot, .ident (n.word "value")]
  | some .call, receiver :: arguments =>
    receiver ++ .punct .dot :: .ident (n.word "value") ::
      enclosed .openParen .closeParen (commaSeparated arguments)
  | some .paren, [inner] => enclosed .openParen .closeParen inner
  | none, parts => n.writeType parts
  | _, _ => []

mutual

/-- The tokens that spell a tree. -/
def tokens : RawNode → List Token
  | ⟨kind, attributes, children⟩ => write ⟨kind, attributes, children⟩ (tokensAll children)

/-- The rows of tokens that spell each of several trees. -/
def tokensAll : List RawNode → List (List Token)
  | [] => []
  | n :: ns => tokens n :: tokensAll ns

end

theorem tokensAll_eq_map (ns : List RawNode) : tokensAll ns = ns.map tokens := by
  induction ns with
  | nil => rfl
  | cons n ns ih => rw [tokensAll, ih, List.map_cons]

theorem tokens_eq (n : RawNode) : n.tokens = n.write (n.children.map tokens) := by
  rw [← tokensAll_eq_map]
  cases n
  rfl

/-! ## Positions -/

/-- The name of an attribute that holds neither an offset nor a part of a position. -/
def isLasting (key : String) : Bool := key != "offset" && key != "line" && key != "col"

/-- The attributes without the position. -/
def lasting (as : Attributes) : Attributes := ⟨as.entries.filter fun e => isLasting e.1⟩

mutual

/-- The tree without the positions. -/
def unplaced : RawNode → RawNode
  | ⟨kind, attributes, children⟩ => ⟨kind, lasting attributes, unplacedAll children⟩

/-- Several trees without the positions. -/
def unplacedAll : List RawNode → List RawNode
  | [] => []
  | n :: ns => unplaced n :: unplacedAll ns

end

theorem unplacedAll_eq_map (ns : List RawNode) : unplacedAll ns = ns.map unplaced := by
  induction ns with
  | nil => rfl
  | cons n ns ih => rw [unplacedAll, ih, List.map_cons]

theorem unplaced_eq (n : RawNode) :
    n.unplaced = ⟨n.kind, lasting n.attributes, n.children.map unplaced⟩ := by
  cases n
  rw [unplaced, unplacedAll_eq_map]

@[simp] theorem unplaced_kind (n : RawNode) : n.unplaced.kind = n.kind := by
  rw [unplaced_eq]

@[simp] theorem unplaced_children (n : RawNode) :
    n.unplaced.children = n.children.map unplaced := by
  rw [unplaced_eq]

theorem unplaced_get? (n : RawNode) {key : String} (h : isLasting key = true) :
    n.unplaced.get? key = n.get? key := by
  rw [unplaced_eq]
  change List.lookup key (n.attributes.entries.filter fun e => isLasting e.1) =
    n.attributes.entries.lookup key
  induction n.attributes.entries with
  | nil => rfl
  | cons e es ih =>
    obtain ⟨k, v⟩ := e
    by_cases hk : key = k
    · subst hk
      simp [h]
    · have hk' : (key == k) = false := beq_eq_false_iff_ne.mpr hk
      cases hkept : isLasting k <;> simp [hkept, List.lookup_cons, hk', ih]

/-- How a node is written depends on its kind, on its attributes other than the position and on the
kinds of its children. -/
theorem write_unplaced (n : RawNode) (parts : List (List Token)) :
    n.unplaced.write parts = n.write parts := by
  have hget (key : String) (h : isLasting key = true) := n.unplaced_get? h
  have hvalue := hget "value" (by decide)
  have hname := hget "name" (by decide)
  have hop := hget "op" (by decide)
  have hext := hget "ext" (by decide)
  have hmethod := hget "methodName" (by decide)
  have hpublic := hget "isPublic" (by decide)
  have hstatic := hget "isStatic" (by decide)
  have hparams : n.unplaced.children.countP isParam = n.children.countP isParam := by
    rw [unplaced_children, List.countP_map]
    exact List.countP_congr fun c _ => by simp [isParam]
  simp only [write, writeType, writeMethod, word, flag, unplaced_kind, hvalue, hname, hop, hext,
    hmethod, hpublic, hstatic, hparams]
  rfl

mutual

/-- A tree is written the same way without its positions. -/
theorem tokens_unplaced : ∀ n : RawNode, n.unplaced.tokens = n.tokens
  | ⟨kind, attributes, children⟩ => by
    rw [tokens_eq, write_unplaced, unplaced_children, ← unplacedAll_eq_map,
      tokens_unplacedAll children, ← tokens_eq]

theorem tokens_unplacedAll : ∀ ns : List RawNode, (unplacedAll ns).map tokens = ns.map tokens
  | [] => rfl
  | n :: ns => by
    rw [unplacedAll, List.map_cons, tokens_unplaced n, tokens_unplacedAll ns, List.map_cons]

end

/-! ## Nodes without a position -/

/-- A node of the grammar without a position. -/
def plain (l : Label) (attributes : List (String × String)) (children : List RawNode) : RawNode :=
  ⟨l.name, .ofList attributes, children⟩

/-- The names of the entries stand in ascending order. -/
def IsSorted (es : List (String × String)) : Prop := es.Pairwise fun e f => e.1 < f.1

theorem mem_insertInto {k v : String} {es : List (String × String)} {e : String × String}
    (h : e ∈ Attributes.insertInto k v es) : e = (k, v) ∨ e ∈ es := by
  induction es with
  | nil => simpa [Attributes.insertInto] using h
  | cons f fs ih =>
    unfold Attributes.insertInto at h
    grind

theorem isSorted_insertInto {es : List (String × String)} (h : IsSorted es) (k v : String) :
    IsSorted (Attributes.insertInto k v es) := by
  unfold IsSorted at *
  induction es with
  | nil => simp [Attributes.insertInto]
  | cons e es ih =>
    obtain ⟨hlt, hes⟩ := List.pairwise_cons.mp h
    unfold Attributes.insertInto
    split
    · rename_i hk
      subst hk
      exact List.pairwise_cons.mpr ⟨hlt, hes⟩
    split
    · rename_i hk
      refine List.pairwise_cons.mpr ⟨?_, h⟩
      intro f hf
      rcases List.mem_cons.mp hf with rfl | hf
      · exact hk
      · exact String.lt_trans hk (hlt f hf)
    · refine List.pairwise_cons.mpr ⟨?_, ih hes⟩
      intro f hf
      rcases mem_insertInto hf with rfl | hf
      · grind
      · exact hlt f hf

/-- In front of greater names there is nothing to pass over. -/
theorem insertInto_eq_cons {k v : String} {es : List (String × String)}
    (h : ∀ e ∈ es, k < e.1) : Attributes.insertInto k v es = (k, v) :: es := by
  cases es with
  | nil => rfl
  | cons e es =>
    have hlt : k < e.1 := h e List.mem_cons_self
    have hne : k ≠ e.1 := by grind
    simp [Attributes.insertInto, hlt, hne]

theorem filter_insertInto {es : List (String × String)} (h : IsSorted es) {k v : String}
    (hk : isLasting k = true) :
    (Attributes.insertInto k v es).filter (fun e => isLasting e.1) =
      Attributes.insertInto k v (es.filter fun e => isLasting e.1) := by
  unfold IsSorted at h
  induction es with
  | nil => simp [Attributes.insertInto, hk]
  | cons e es ih =>
    obtain ⟨k', v'⟩ := e
    obtain ⟨hlt, hes⟩ := List.pairwise_cons.mp h
    rw [Attributes.insertInto]
    split
    · rename_i heq
      subst heq
      simp [hk, Attributes.insertInto]
    split
    · rename_i hne hk'
      rw [List.filter_cons, if_pos hk, insertInto_eq_cons]
      intro e he
      rcases List.mem_cons.mp (List.mem_filter.mp he).1 with rfl | he
      · exact hk'
      · exact String.lt_trans hk' (hlt e he)
    · rename_i hne hk'
      cases hkept : isLasting k' <;>
        simp [hkept, ih hes, Attributes.insertInto, hne, hk']

theorem lasting_insert {as : Attributes} (h : IsSorted as.entries) {k v : String}
    (hk : isLasting k = true) : lasting (as.insert k v) = (lasting as).insert k v :=
  congrArg Attributes.mk (filter_insertInto h hk)

/-- A part of a position does not last. -/
theorem lasting_insert_place (as : Attributes) {k v : String} (hk : isLasting k = false) :
    lasting (as.insert k v) = lasting as := by
  refine congrArg Attributes.mk ?_
  change (Attributes.insertInto k v as.entries).filter _ = as.entries.filter _
  induction as.entries with
  | nil => simp [Attributes.insertInto, hk]
  | cons e es ih =>
    obtain ⟨k', v'⟩ := e
    rw [Attributes.insertInto]
    split
    · rename_i heq
      subst heq
      simp [hk]
    split
    · rw [List.filter_cons, if_neg (by simp [hk])]
    · rw [List.filter_cons, List.filter_cons, ih]

theorem lasting_foldl {as : List (String × String)} (h : ∀ e ∈ as, isLasting e.1 = true)
    {base : Attributes} (hbase : IsSorted base.entries) :
    lasting (as.foldl (fun as e => as.insert e.1 e.2) base) =
      as.foldl (fun as e => as.insert e.1 e.2) (lasting base) := by
  induction as generalizing base with
  | nil => rfl
  | cons e as ih =>
    obtain ⟨he, has⟩ := List.forall_mem_cons.mp h
    have hinsert : IsSorted (base.insert e.1 e.2).entries := isSorted_insertInto hbase e.1 e.2
    rw [List.foldl_cons, List.foldl_cons, ih has hinsert, lasting_insert hbase he]

theorem lasting_ofList {as : List (String × String)} (h : ∀ e ∈ as, isLasting e.1 = true) :
    lasting (.ofList as) = .ofList as :=
  lasting_foldl h List.Pairwise.nil

/-- **Without its offset a node of the grammar has the attributes that it was made with.** -/
theorem unplaced_place (kind : String) (offset? : Option String) (as : List (String × String))
    (h : ∀ e ∈ as, isLasting e.1 = true) (children : List RawNode) :
    (place kind offset? as children).unplaced = ⟨kind, .ofList as, children.map unplaced⟩ := by
  rw [unplaced_eq]
  refine congrArg (RawNode.mk kind · _) ?_
  cases offset? with
  | none => exact lasting_ofList h
  | some offset => exact (lasting_insert_place _ rfl).trans (lasting_ofList h)

/-! ## Positions in the place of offsets -/

theorem resolveAll_eq_map (lines : Lines) (ns : List RawNode) :
    resolveAll lines ns = ns.map (resolvePositions lines) := by
  induction ns with
  | nil => rfl
  | cons n ns ih => rw [resolveAll, ih, List.map_cons]

theorem resolvePositions_eq (lines : Lines) (n : RawNode) :
    n.resolvePositions lines =
      ⟨n.kind, n.attributes.resolvePosition lines, n.children.map (resolvePositions lines)⟩ := by
  cases n
  rw [resolvePositions, resolveAll_eq_map]

@[simp] theorem resolvePositions_kind (lines : Lines) (n : RawNode) :
    (n.resolvePositions lines).kind = n.kind := by rw [resolvePositions_eq]

@[simp] theorem resolvePositions_children (lines : Lines) (n : RawNode) :
    (n.resolvePositions lines).children = n.children.map (resolvePositions lines) := by
  rw [resolvePositions_eq]

theorem lasting_remove_offset (as : Attributes) : lasting (as.remove "offset") = lasting as := by
  refine congrArg Attributes.mk ?_
  change (as.entries.filter (·.1 != "offset")).filter _ = _
  rw [List.filter_filter]
  refine List.filter_congr fun e _ => ?_
  cases hoffset : e.1 != "offset" <;> simp [isLasting, hoffset]

theorem lasting_resolvePosition (lines : Lines) (as : Attributes) :
    lasting (as.resolvePosition lines) = lasting as := by
  unfold Attributes.resolvePosition
  split
  · rfl
  dsimp only
  split
  · exact lasting_remove_offset as
  · rw [lasting_insert_place _ rfl, lasting_insert_place _ rfl, lasting_remove_offset]

/-- Only offsets and positions change. -/
@[simp] theorem unplaced_resolvePositions (lines : Lines) (n : RawNode) :
    (n.resolvePositions lines).unplaced = n.unplaced := by
  induction n using RawNode.induction with
  | step n ih =>
    rw [unplaced_eq, unplaced_eq, resolvePositions_kind, resolvePositions_children, List.map_map,
      resolvePositions_eq, lasting_resolvePosition]
    exact congrArg _ (List.map_congr_left ih)

end RawNode

end MiniJava
