import MiniJava.Proofs.Grammar.Written
import MiniJava.Proofs.Tree.Numbering

/-!
# Trees without positions

`Node.unplaced` is a tree whose positions are all unknown. The nodes keep their numbers, for these
follow from the order in which the nodes are finished. Reading a raw tree without its positions
yields the syntax tree without its positions (`ofRaw?_unplaced`). So two raw trees that differ in
positions only yield such trees as well, and both of these are well-formed or none
(`wellFormed_unplaced_iff`).
-/

namespace MiniJava

namespace Node

/-! ## Positions of nodes -/

/-- The tree with unknown positions. -/
def unplaced (n : Node) : Node :=
  Id.run (n.rewrite fun m => pure { m with position := .unknown })

theorem rewriteAll_unplaced (ns : List Node) :
    rewriteAll (fun m => (pure { m with position := .unknown } : Id Node)) ns =
      ns.map unplaced := by
  induction ns with
  | nil => rfl
  | cons n ns ih => exact congrArg (n.unplaced :: ·) ih

theorem unplaced_eq (n : Node) : n.unplaced = ⟨n.id, .unknown, n.kind.map unplaced⟩ := by
  obtain ⟨i, p, k⟩ := n
  cases k with
  | returning v => cases v <;> rfl
  | ifElse c t e => cases e <;> rfl
  | program | classDecl | methodDecl | block | arrayLit | call =>
    simp only [unplaced, rewrite, rewriteAll_unplaced, Kind.map]
    rfl
  | _ => rfl

@[simp] theorem unplaced_mk (i : Nat) (p : Position) (k : Kind Node) :
    unplaced ⟨i, p, k⟩ = ⟨i, .unknown, k.map unplaced⟩ := unplaced_eq _

@[simp] theorem unplaced_kind (n : Node) : n.unplaced.kind = n.kind.map unplaced := by
  rw [unplaced_eq]

@[simp] theorem unplaced_children (n : Node) : n.unplaced.children = n.children.map unplaced := by
  rw [children, unplaced_kind, Kind.children_map, children]

@[simp] theorem unplaced_position (n : Node) : n.unplaced.position = .unknown := by
  rw [unplaced_eq]

@[simp] theorem preorder_unplaced (n : Node) : n.unplaced.preorder = n.preorder.map unplaced := by
  induction n using induction with
  | step n ih =>
    rw [preorder_eq, preorder_eq, unplaced_children, List.map_cons, List.map_flatMap,
      List.flatMap_map, List.flatMap_congr ih]

@[simp] theorem label_unplaced (n : Node) : n.unplaced.label = n.label := by
  rw [label, unplaced_kind, Kind.label_map]

theorem fits_unplaced_iff {k : Kind Node} : (k.map unplaced).Fits ↔ k.Fits := by
  cases k <;>
    simp only [Kind.Fits, Kind.map, Kind.children, List.forall_mem_map, Option.forall_mem_map,
      Option.toList_map, List.forall_mem_cons, IsExpr, IsStmt, label_unplaced]

theorem wellFormed_unplaced_iff {n : Node} : n.unplaced.WellFormed ↔ n.WellFormed := by
  induction n using induction with
  | step n ih =>
    have hbelow : (∀ c ∈ n.unplaced.children, c.WellFormed) ↔ ∀ c ∈ n.children, c.WellFormed := by
      rw [unplaced_children, List.forall_mem_map]
      exact forall₂_congr ih
    constructor
    · intro h
      have hfits := h.fits
      rw [unplaced_kind] at hfits
      exact .intro (fits_unplaced_iff.mp hfits) (hbelow.mp fun _ => h.of_mem_children)
    · intro h
      refine .intro ?_ (hbelow.mpr fun _ => h.of_mem_children)
      rw [unplaced_kind]
      exact fits_unplaced_iff.mpr h.fits

end Node

/-! ## Attributes and types -/

namespace RawNode

variable (n : RawNode)

/-- A tree without positions stands nowhere. -/
@[simp] theorem position_unplaced : n.unplaced.position = .unknown := by
  have hget (key : String) (h : isLasting key = false) : n.unplaced.get? key = none := by
    rw [unplaced_eq]
    refine List.lookup_eq_none_iff.mpr fun e he => ?_
    have hkept := (List.mem_filter.mp he).2
    grind
  simp only [position, hget "line" rfl, hget "col" rfl]
  rfl

theorem attr_unplaced (key : String) (h : isLasting key = true) :
    n.unplaced.attr key = n.attr key := by
  rw [attr, attr, unplaced_get? n h, unplaced_kind]

theorem flag_unplaced (key : String) (h : isLasting key = true) :
    n.unplaced.flag key = n.flag key := by
  rw [flag, flag, unplaced_get? n h]

theorem binaryOp_unplaced : n.unplaced.binaryOp = n.binaryOp := by
  rw [binaryOp, binaryOp, attr_unplaced n "op" rfl]

theorem unaryOp_unplaced : n.unplaced.unaryOp = n.unaryOp := by
  rw [unaryOp, unaryOp, attr_unplaced n "op" rfl]

theorem intValue_unplaced : n.unplaced.intValue = n.intValue := by
  rw [intValue, intValue, attr_unplaced n "value" rfl]

theorem boolValue_unplaced : n.unplaced.boolValue = n.boolValue := by
  rw [boolValue, boolValue, attr_unplaced n "value" rfl]

theorem flatType_unplaced : n.unplaced.flatType = n.flatType := by
  unfold flatType
  rw [unplaced_kind, attr_unplaced n "value" rfl]

theorem typeExpr_unplaced : n.unplaced.typeExpr = n.typeExpr := by
  unfold typeExpr
  rw [unplaced_kind, unplaced_children, flatType_unplaced]
  cases n.children with
  | nil => rfl
  | cons c cs => simp only [List.map_cons, unplaced_kind, flatType_unplaced]

theorem declaredType_unplaced : n.unplaced.declaredType = n.declaredType := by
  unfold declaredType
  rw [unplaced_kind, unplaced_children]
  cases n.children with
  | nil => rfl
  | cons c cs => exact typeExpr_unplaced c

end RawNode

/-! ## Reading without positions -/

namespace Node

/-- A node is finished where its raw node stands, or nowhere. -/
theorem finish_unplaced (raw : RawNode) (k : Kind Node) :
    finish raw.unplaced (k.map unplaced) = unplaced <$> finish raw k := by
  funext i
  have h : (⟨i, raw.unplaced.position, k.map unplaced⟩ : Node) = unplaced ⟨i, raw.position, k⟩ := by
    rw [RawNode.position_unplaced, unplaced_mk]
  exact congrArg (fun n => Except.ok (n, i + 1)) h

/-- Reading the tree without its positions yields the node without its positions. -/
def ReadsUnplaced (raw : RawNode) : Prop := read raw.unplaced = unplaced <$> read raw

variable {raws : List RawNode}

theorem readChild_unplaced (kind : String) (h : ∀ r ∈ raws, ReadsUnplaced r) (n index : Nat) :
    readChild kind (raws.map RawNode.unplaced) n index =
      unplaced <$> readChild kind raws n index := by
  induction raws generalizing n with
  | nil => rfl
  | cons r rs ih =>
    cases n with
    | zero => exact h r List.mem_cons_self
    | succ n => exact ih (fun c hc => h c (List.mem_cons_of_mem r hc)) n

theorem readChild?_unplaced (h : ∀ r ∈ raws, ReadsUnplaced r) (n : Nat) :
    readChild? (raws.map RawNode.unplaced) n = Option.map unplaced <$> readChild? raws n := by
  induction raws generalizing n with
  | nil => rfl
  | cons r rs ih =>
    cases n with
    | zero =>
      have hr : read r.unplaced = unplaced <$> read r := h r List.mem_cons_self
      simp [readChild?, hr]
    | succ n => exact ih (fun c hc => h c (List.mem_cons_of_mem r hc)) n

theorem readAll_unplaced (h : ∀ r ∈ raws, ReadsUnplaced r) :
    readAll (raws.map RawNode.unplaced) = List.map unplaced <$> readAll raws := by
  induction raws with
  | nil => rfl
  | cons r rs ih =>
    obtain ⟨hr, hrs⟩ := List.forall_mem_cons.mp h
    unfold ReadsUnplaced at hr
    simp [readAll, hr, ih hrs]

theorem readAllAfter_unplaced (h : ∀ r ∈ raws, ReadsUnplaced r) :
    readAllAfter (raws.map RawNode.unplaced) = List.map unplaced <$> readAllAfter raws := by
  cases raws with
  | nil => rfl
  | cons r rs => exact readAll_unplaced fun c hc => h c (List.mem_cons_of_mem r hc)

theorem readItems_unplaced (kind : String) (h : ∀ r ∈ raws, ReadsUnplaced r) :
    readItems kind (raws.map RawNode.unplaced) = List.map unplaced <$> readItems kind raws := by
  induction raws with
  | nil => rfl
  | cons r rs ih =>
    obtain ⟨hr, hrs⟩ := List.forall_mem_cons.mp h
    unfold ReadsUnplaced at hr
    simp only [List.map_cons, readItems, RawNode.unplaced_kind, hr, ih hrs]
    split <;> simp

theorem readMembers_unplaced (kind : String) (h : ∀ r ∈ raws, ReadsUnplaced r) :
    readMembers kind (raws.map RawNode.unplaced) =
      Prod.map (List.map unplaced) (List.map unplaced) <$> readMembers kind raws := by
  induction raws with
  | nil => rfl
  | cons r rs ih =>
    obtain ⟨hr, hrs⟩ := List.forall_mem_cons.mp h
    unfold ReadsUnplaced at hr
    simp only [List.map_cons, readMembers, RawNode.unplaced_kind, hr, ih hrs]
    split
    · simp
    split
    · simp
    · rfl

/-- The parts of a method without their positions. -/
def MethodParts.unplaced (parts : MethodParts) : MethodParts where
  returnType := parts.returnType
  params := parts.params.map Node.unplaced
  locals := parts.locals.map Node.unplaced
  body := parts.body.map Node.unplaced

theorem readMethod_unplaced (kind : String) (h : ∀ r ∈ raws, ReadsUnplaced r)
    (parts : MethodParts) :
    readMethod kind (raws.map RawNode.unplaced) parts.unplaced =
      MethodParts.unplaced <$> readMethod kind raws parts := by
  induction raws generalizing parts with
  | nil => rfl
  | cons r rs ih =>
    obtain ⟨hr, hrs⟩ := List.forall_mem_cons.mp h
    unfold ReadsUnplaced at hr
    have ih := ih hrs
    simp only [List.map_cons, readMethod, RawNode.unplaced_kind, RawNode.typeExpr_unplaced, hr]
    have hsome : parts.unplaced.returnType = parts.returnType := rfl
    rw [hsome]
    split
    · split
      · rfl
      · rw [map_bind]
        exact bind_congr fun t => ih { parts with returnType := some t }
    split
    · rw [map_bind, bind_map_left]
      exact bind_congr fun n => ih { parts with params := n :: parts.params }
    split
    · rw [map_bind, bind_map_left]
      exact bind_congr fun n => ih { parts with locals := n :: parts.locals }
    split
    · rw [map_bind, bind_map_left]
      exact bind_congr fun n => ih { parts with body := n :: parts.body }
    · rfl

/-- **Reading a tree does not depend on positions**, but for those of the nodes. -/
theorem read_unplaced (raw : RawNode) : ReadsUnplaced raw := by
  induction raw using RawNode.induction with
  | step raw ih =>
    have hvalue := raw.attr_unplaced "value" rfl
    have hname := raw.attr_unplaced "name" rfl
    have hmethod := raw.attr_unplaced "methodName" rfl
    have hext : raw.unplaced.get? "ext" = raw.get? "ext" := raw.unplaced_get? rfl
    have helement : raw.unplaced.get? "value" = raw.get? "value" := raw.unplaced_get? rfl
    have hpublic := raw.flag_unplaced "isPublic" rfl
    have hstatic := raw.flag_unplaced "isStatic" rfl
    have hfinish (k : Kind Node) := finish_unplaced raw k
    obtain ⟨kind, attributes, children⟩ := raw
    replace ih : ∀ r ∈ children, ReadsUnplaced r := ih
    have hchild (n index : Nat) := readChild_unplaced kind ih n index
    have hmethods := readMethod_unplaced kind ih {}
    change readMethod kind (children.map RawNode.unplaced) {} = _ at hmethods
    unfold ReadsUnplaced
    rw [RawNode.unplaced_eq]
    unfold read
    rw [← RawNode.unplaced_eq ⟨kind, attributes, children⟩]
    cases Label.ofName? kind with
    | none => rfl
    | some l =>
      -- Whatever the sort, attributes and children are read one after the other, and then the node
      -- is finished. Each of these steps has its lemma.
      cases l <;>
        simp only [map_bind, bind_map_left, hvalue, hname, hmethod, hext, helement, hpublic,
          hstatic, RawNode.declaredType_unplaced, RawNode.binaryOp_unplaced,
          RawNode.unaryOp_unplaced, RawNode.intValue_unplaced, RawNode.boolValue_unplaced, hchild,
          readChild?_unplaced ih, readAll_unplaced ih, readAllAfter_unplaced ih,
          readItems_unplaced kind ih, readMembers_unplaced kind ih, hmethods, ← hfinish, Kind.map,
          MethodParts.unplaced, Prod.map, List.map_reverse]

/-- Trees that differ in positions only denote trees that differ in positions only. -/
theorem ofRaw?_unplaced (raw : RawNode) : ofRaw? raw.unplaced = (ofRaw? raw).map unplaced := by
  have hread : read raw.unplaced = unplaced <$> read raw := read_unplaced raw
  unfold ofRaw?
  rw [hread]
  change Prod.fst <$> (unplaced <$> read raw).run 0 = (Prod.fst <$> (read raw).run 0).map unplaced
  rw [StateT.run_map]
  cases (read raw).run 0 <;> rfl

end Node

end MiniJava
