import MiniJava.Proofs.Graph.Shows
import MiniJava.Proofs.Tree.Meets

/-!
# From programs to syntax trees

The grammar and the reading of raw trees agree on what a raw node has: each phrase of the language
converts (`IsExpr.converts` and its likes, by induction on the phrase), and so does the tree of any
program. So a program becomes a syntax tree unless one of its integers is too large, and the table
of that tree has one node for each raw node that is no written type.

The main theorem is `ofRaw?_of_parse`.
-/

namespace MiniJava

open Token

namespace RawNode

open Node Grammar

/-! ## Nodes of the grammar -/

section

variable {m n n' : RawNode} {kind : String} {as : List (String × String)} {ns : List RawNode}

/-- The node has all of these attributes that belong to no position. -/
def Keeps (m : RawNode) (as : List (String × String)) : Prop :=
  ∀ key v, isLasting key = true → (Attributes.ofList as).get? key = some v → m.get? key = some v

/-- A tree that is this node but for its positions. -/
theorem exists_of_unplaced (h : m.unplaced = ⟨kind, .ofList as, ns⟩) :
    ∃ attributes children, m = ⟨kind, attributes, children⟩ ∧ m.Keeps as ∧
      children.map unplaced = ns := by
  obtain ⟨kind', attributes, children⟩ := m
  have hkeeps : Keeps ⟨kind', attributes, children⟩ as := by
    intro key v hkey hv
    rwa [← unplaced_get? _ hkey, h]
  rw [unplaced_eq] at h
  obtain ⟨rfl, -, hchildren⟩ := RawNode.mk.inj h
  exact ⟨attributes, children, rfl, hkeeps, hchildren⟩

theorem exists_of_unplaced_leaf (h : m.unplaced = ⟨kind, .ofList as, []⟩) :
    ∃ attributes, m = ⟨kind, attributes, []⟩ ∧ m.Keeps as := by
  obtain ⟨attributes, children, rfl, hkeeps, hchildren⟩ := exists_of_unplaced h
  obtain rfl := List.map_eq_nil_iff.mp hchildren
  exact ⟨attributes, rfl, hkeeps⟩

theorem exists_of_unplaced_one (h : m.unplaced = ⟨kind, .ofList as, [n]⟩) :
    ∃ attributes c, m = ⟨kind, attributes, [c]⟩ ∧ m.Keeps as ∧ c.unplaced = n := by
  obtain ⟨attributes, children, rfl, hkeeps, hchildren⟩ := exists_of_unplaced h
  obtain ⟨c, rfl, hc⟩ := List.map_eq_singleton_iff.mp hchildren
  exact ⟨attributes, c, rfl, hkeeps, hc⟩

theorem exists_of_unplaced_two (h : m.unplaced = ⟨kind, .ofList as, [n, n']⟩) :
    ∃ attributes c c', m = ⟨kind, attributes, [c, c']⟩ ∧ m.Keeps as ∧
      c.unplaced = n ∧ c'.unplaced = n' := by
  obtain ⟨attributes, children, rfl, hkeeps, hchildren⟩ := exists_of_unplaced h
  obtain ⟨c, cs, rfl, hc, hcs⟩ := List.map_eq_cons_iff.mp hchildren
  obtain ⟨c', rfl, hc'⟩ := List.map_eq_singleton_iff.mp hcs
  exact ⟨attributes, c, c', rfl, hkeeps, hc, hc'⟩

/-- To convert a node of the grammar is to read it. -/
theorem converts_of_meets {l : Label} (hm : m.unplaced = plain l as ns) {ds : List String} {i : Nat}
    (hread : Meets (read m) ds i) (hds : integers (plain l as ns).tokens = ds)
    (hi : (postorderAll m.children).length + 1 = i) : m.Converts := by
  obtain ⟨attributes, children, rfl, -, -⟩ := exists_of_unplaced hm
  have htype : isTypeKind l.name = false := isTypeKind_of_ofName? (Label.ofName?_name l)
  rw [Converts, ← tokens_unplaced, hm, hds, postorder, htype, List.length_append]
  exact hi ▸ hread

end

theorem IsExpr.converts {n : RawNode} (h : n.IsExpr) {m : RawNode} (hm : m.unplaced = n) :
    m.Converts := by
  induction h generalizing m with
  | intLit digits =>
    obtain ⟨as, rfl, hkeeps⟩ := exists_of_unplaced_leaf hm
    have hvalue := hkeeps "value" digits rfl rfl
    exact converts_of_meets hm (.intValue hvalue fun v => .finish _ _) (by simp) rfl
  | boolLit b =>
    obtain ⟨as, rfl, hkeeps⟩ := exists_of_unplaced_leaf hm
    have hvalue := hkeeps "value" (flagText b) rfl rfl
    exact converts_of_meets hm (.lift (boolValue_eq hvalue) (.finish _ _)) (by simp) rfl
  | this =>
    obtain ⟨as, rfl, -⟩ := exists_of_unplaced_leaf hm
    exact .finish _ _
  | varRef name | newObject name =>
    obtain ⟨as, rfl, hkeeps⟩ := exists_of_unplaced_leaf hm
    exact .lift (attr_eq (hkeeps "value" name rfl rfl)) (.finish _ _)
  | newArray _ _ ih | arrayLength _ _ ih | paren _ ih =>
    obtain ⟨as, c, rfl, -, rfl⟩ := exists_of_unplaced_one hm
    exact converts_of_meets hm ((ih rfl).then_finish _ _) (by simp [tokens_unplaced])
      (by simp [postorderAll])
  | arrayLit h ih =>
    obtain ⟨as, children, rfl, -, rfl⟩ := exists_of_unplaced hm
    have hall := readAll_meets fun c hc => ih _ (List.mem_map_of_mem hc) rfl
    exact converts_of_meets hm (hall.then_finish _ _)
      (by simp [tokens_unplaced, List.flatMap_map]) rfl
  | arrayAccess _ _ _ ih ih' =>
    obtain ⟨as, c, c', rfl, -, rfl, rfl⟩ := exists_of_unplaced_two hm
    exact converts_of_meets hm ((ih rfl).bind fun _ => (ih' rfl).then_finish _ _)
      (by simp [tokens_unplaced]) (by simp [postorderAll, Nat.add_assoc])
  | call method _ _ _ ih ih' =>
    obtain ⟨as, children, rfl, hkeeps, hchildren⟩ := exists_of_unplaced hm
    obtain ⟨c, cs, rfl, rfl, rfl⟩ := List.map_eq_cons_iff.mp hchildren
    have hall := readAll_meets fun c hc => ih' _ (List.mem_map_of_mem hc) rfl
    have hmethod := attr_eq (hkeeps "value" method rfl rfl)
    exact converts_of_meets hm ((ih rfl).bind fun _ => .lift hmethod (hall.then_finish _ _))
      (by simp [tokens_unplaced, List.flatMap_map])
      (by simp [postorderAll, Nat.add_assoc])
  | unary _ _ ih =>
    obtain ⟨as, c, rfl, hkeeps, rfl⟩ := exists_of_unplaced_one hm
    exact converts_of_meets hm
      (.lift (unaryOp_eq (hkeeps "op" "!" rfl rfl)) ((ih rfl).then_finish _ _))
      (by simp [tokens_unplaced]) (by simp [postorderAll])
  | binary op _ _ _ _ ih ih' =>
    obtain ⟨as, c, c', rfl, hkeeps, rfl, rfl⟩ := exists_of_unplaced_two hm
    exact converts_of_meets hm
      (.lift (binaryOp_eq (hkeeps "op" op.symbol (by decide) (by cases op <;> rfl)))
        ((ih rfl).bind fun _ => (ih' rfl).then_finish _ _))
      (by simp [tokens_unplaced]) (by simp [postorderAll, Nat.add_assoc])

theorem IsStmt.converts {n : RawNode} (h : n.IsStmt) {m : RawNode} (hm : m.unplaced = n) :
    m.Converts := by
  induction h generalizing m with
  | block _ ih =>
    obtain ⟨as, children, rfl, -, rfl⟩ := exists_of_unplaced hm
    have hall := readAll_meets fun c hc => ih _ (List.mem_map_of_mem hc) rfl
    exact converts_of_meets hm (hall.then_finish _ _)
      (by simp [tokens_unplaced, List.flatMap_map]) rfl
  | ifThen hcondition _ ih =>
    obtain ⟨as, c, c', rfl, -, rfl, rfl⟩ := exists_of_unplaced_two hm
    exact converts_of_meets hm
      (.bind (hcondition.converts rfl) fun _ => (ih rfl).bind fun _ => .finish _ _)
      (by simp [tokens_unplaced]) (by simp [postorderAll, Nat.add_assoc])
  | ifElse hcondition _ _ _ ih ih' =>
    obtain ⟨as, children, rfl, -, hchildren⟩ := exists_of_unplaced hm
    obtain ⟨c, cs, rfl, rfl, hcs⟩ := List.map_eq_cons_iff.mp hchildren
    obtain ⟨t, es, rfl, rfl, hes⟩ := List.map_eq_cons_iff.mp hcs
    obtain ⟨e, rfl, rfl⟩ := List.map_eq_singleton_iff.mp hes
    exact converts_of_meets hm
      (.bind (hcondition.converts rfl) fun _ => (ih rfl).bind fun _ =>
        ((ih' rfl).then_pure some).then_finish _ _)
      (by simp [tokens_unplaced]) (by simp [postorderAll, Nat.add_assoc])
  | whileLoop hcondition _ ih =>
    obtain ⟨as, c, c', rfl, -, rfl, rfl⟩ := exists_of_unplaced_two hm
    exact converts_of_meets hm
      (.bind (hcondition.converts rfl) fun _ => (ih rfl).then_finish _ _)
      (by simp [tokens_unplaced]) (by simp [postorderAll, Nat.add_assoc])
  | returning value h =>
    cases value with
    | none =>
      obtain ⟨as, rfl, -⟩ := exists_of_unplaced_leaf hm
      exact converts_of_meets hm (.finish _ _) (by simp) rfl
    | some e =>
      obtain ⟨as, c, rfl, -, rfl⟩ := exists_of_unplaced_one hm
      have hvalue := (h _ rfl).converts rfl
      exact converts_of_meets hm ((hvalue.then_pure some).then_finish _ _)
        (by simp [tokens_unplaced]) (by simp [postorderAll])
  | assign target h =>
    obtain ⟨as, c, rfl, hkeeps, rfl⟩ := exists_of_unplaced_one hm
    exact converts_of_meets hm
      (.lift (attr_eq (hkeeps "value" target rfl rfl)) (Meets.then_finish (h.converts rfl) _ _))
      (by simp [tokens_unplaced]) (by simp [postorderAll])
  | arrayAssign target hindex hvalue =>
    obtain ⟨as, c, c', rfl, hkeeps, rfl, rfl⟩ := exists_of_unplaced_two hm
    exact converts_of_meets hm
      (.lift (attr_eq (hkeeps "value" target rfl rfl))
        (.bind (hindex.converts rfl) fun _ => Meets.then_finish (hvalue.converts rfl) _ _))
      (by simp [tokens_unplaced]) (by simp [postorderAll, Nat.add_assoc])
  | exprStmt h =>
    obtain ⟨as, c, rfl, -, rfl⟩ := exists_of_unplaced_one hm
    exact converts_of_meets hm (Meets.then_finish (h.converts rfl) _ _)
      (by simp [tokens_unplaced]) (by simp [postorderAll])

/-! ## Declarations -/

theorem IsFlatType.exists_flatType {n : RawNode} (h : n.IsFlatType) {m : RawNode}
    (hm : m.unplaced = n) :
    (∃ t, m.flatType = .ok t) ∧ isArrayKind m.kind = false ∧ m.postorder = [] := by
  cases h with
  | named name =>
    obtain ⟨as, rfl, hkeeps⟩ := exists_of_unplaced_leaf hm
    refine ⟨⟨.named name, ?_⟩, rfl, rfl⟩
    change ((RawNode.mk _ as []).attr "value").map TypeExpr.named = _
    rw [attr_eq (hkeeps "value" name rfl rfl)]
    rfl
  | _ =>
    obtain ⟨as, rfl, -⟩ := exists_of_unplaced_leaf hm
    exact ⟨⟨_, rfl⟩, rfl, rfl⟩

/-- A written type can be read and is no node. -/
theorem IsType.exists_typeExpr {n : RawNode} (h : n.IsType) {m : RawNode} (hm : m.unplaced = n) :
    (∃ t, m.typeExpr = .ok t) ∧ m.postorder = [] := by
  cases h with
  | flat h =>
    obtain ⟨ht, harray, hpost⟩ := h.exists_flatType hm
    rw [typeExpr, harray]
    exact ⟨ht, hpost⟩
  | array h | varargs h =>
    obtain ⟨as, c, rfl, -, rfl⟩ := exists_of_unplaced_one hm
    obtain ⟨⟨t, ht⟩, harray, hpost⟩ := h.exists_flatType rfl
    have hread (e : TreeError) (f : TypeExpr → TypeExpr) :
        (if isArrayKind c.kind then .error e else do return f (← c.flatType)) = .ok (f t) := by
      rw [harray, ht]
      rfl
    refine ⟨⟨_, hread _ _⟩, ?_⟩
    rw [postorder, postorderAll, hpost]
    rfl

theorem IsType.integers_tokens {n : RawNode} (h : n.IsType) : integers n.tokens = [] := by
  have hflat {t : RawNode} (h : t.IsFlatType) : integers t.tokens = [] := by
    cases h <;> rfl
  cases h with
  | flat h => exact hflat h
  | array h | varargs h => simp [hflat h]

theorem IsType.isTypeKind {n : RawNode} (h : n.IsType) : RawNode.isTypeKind n.kind = true := by
  cases h with
  | flat h => cases h <;> rfl
  | _ => rfl

theorem converts_of_declared {l : Label} (hl : l = .varDecl ∨ l = .param) {type m : RawNode}
    {name : String} (htype : type.IsType) (hm : m.unplaced = plain l [("name", name)] [type]) :
    m.Converts := by
  obtain ⟨as, c, rfl, hkeeps, rfl⟩ := exists_of_unplaced_one hm
  obtain ⟨⟨t, ht⟩, hpost⟩ := htype.exists_typeExpr rfl
  have hname := attr_eq (hkeeps "name" name rfl rfl)
  rcases hl with rfl | rfl
  all_goals
    exact converts_of_meets hm (.lift hname (.lift ht (.finish _ _)))
      (by simp [htype.integers_tokens]) (by simp [postorderAll, hpost])

theorem IsVarDecl.converts {n : RawNode} (h : n.IsVarDecl) {m : RawNode} (hm : m.unplaced = n) :
    m.Converts := by
  obtain ⟨name, htype⟩ := h
  exact converts_of_declared (.inl rfl) htype hm

theorem IsParam.converts {n : RawNode} (h : n.IsParam) {m : RawNode} (hm : m.unplaced = n) :
    m.Converts := by
  obtain ⟨name, htype⟩ := h
  exact converts_of_declared (.inr rfl) htype hm

theorem IsImport.converts {n : RawNode} (h : n.IsImport) {m : RawNode} (hm : m.unplaced = n) :
    m.Converts := by
  obtain ⟨path⟩ := h
  obtain ⟨as, rfl, hkeeps⟩ := exists_of_unplaced_leaf hm
  exact converts_of_meets hm (.lift (attr_eq (hkeeps "value" path rfl rfl)) (.finish _ _))
    (by simp) rfl

theorem IsParam.kind_eq {n : RawNode} (h : n.IsParam) : n.kind = Label.param.name := by
  cases h
  rfl

theorem IsVarDecl.kind_eq {n : RawNode} (h : n.IsVarDecl) : n.kind = Label.varDecl.name := by
  cases h
  rfl

theorem IsMethod.kind_eq {n : RawNode} (h : n.IsMethod) : n.kind = Label.methodDecl.name := by
  cases h
  rfl

theorem IsImport.kind_eq {n : RawNode} (h : n.IsImport) : n.kind = Label.importDecl.name := by
  cases h
  rfl

theorem IsClass.kind_eq {n : RawNode} (h : n.IsClass) : n.kind = Label.classDecl.name := by
  cases h
  rfl

theorem IsStmt.exists_kind_eq {n : RawNode} (h : n.IsStmt) :
    ∃ l : Label, l.isStatement = true ∧ n.kind = l.name := by
  cases h with
  | block => exact ⟨.block, rfl, rfl⟩
  | ifThen | ifElse => exact ⟨.ifElse, rfl, rfl⟩
  | whileLoop => exact ⟨.whileLoop, rfl, rfl⟩
  | returning => exact ⟨.returning, rfl, rfl⟩
  | assign => exact ⟨.assign, rfl, rfl⟩
  | arrayAssign => exact ⟨.arrayAssign, rfl, rfl⟩
  | exprStmt => exact ⟨.exprStmt, rfl, rfl⟩

theorem IsMethod.converts {n : RawNode} (h : n.IsMethod) {m : RawNode} (hm : m.unplaced = n) :
    m.Converts := by
  obtain ⟨isPublic, isStatic, name, htype, hparams, hbody⟩ := h
  obtain ⟨as, children, rfl, hkeeps, hchildren⟩ := exists_of_unplaced hm
  rw [List.cons_append] at hchildren
  obtain ⟨type, parts, rfl, rfl, hparts⟩ := List.map_eq_cons_iff.mp hchildren
  obtain ⟨params, body, rfl, rfl, rfl⟩ := List.map_eq_append_iff.mp hparts
  rw [List.forall_mem_map] at hparams hbody
  obtain ⟨⟨t, ht⟩, hpost⟩ := htype.exists_typeExpr rfl
  have hconverts (c : RawNode) (hc : c ∈ params ++ body) : c.Converts := by
    rcases List.mem_append.mp hc with hc | hc
    · exact (hparams c hc).converts rfl
    · exact (hbody c hc).elim (·.converts rfl) (·.converts rfl)
  have hpart (c : RawNode) (hc : c ∈ params ++ body) : c.IsPart := by
    unfold IsPart
    rw [← unplaced_kind]
    rcases List.mem_append.mp hc with hc | hc
    · exact .inl (hparams c hc).kind_eq
    · exact .inr ((hbody c hc).imp (·.kind_eq) (·.exists_kind_eq))
  -- The type comes first and is the only one.
  have hread : Meets (readMethod Label.methodDecl.name (type :: (params ++ body)) {})
      ((params ++ body).flatMap fun n => integers n.tokens)
      (postorderAll (params ++ body)).length := by
    rw [readMethod, ← unplaced_kind, htype.isTypeKind]
    exact .lift ht (readMethod_meets _ hconverts hpart _)
  have hname := hkeeps "methodName" name rfl (by simp [Attributes.ofList])
  refine converts_of_meets hm (hread.bind fun _ => .lift (attr_eq hname) (.finish _ _)) ?_ ?_
  · rw [htype.tokens_methodDecl (List.forall_mem_map.mpr hparams) (List.forall_mem_map.mpr hbody)]
    have hnone := htype.integers_tokens
    rw [tokens_unplaced] at hnone
    cases isPublic <;> cases isStatic <;> simp [hnone, tokens_unplaced, List.flatMap_map]
  · rw [postorderAll, hpost]
    rfl

theorem IsClass.converts {n : RawNode} (h : n.IsClass) {m : RawNode} (hm : m.unplaced = n) :
    m.Converts := by
  obtain ⟨name, superclass, hmembers⟩ := h
  obtain ⟨as, children, rfl, hkeeps, rfl⟩ := exists_of_unplaced hm
  have hname := hkeeps "name" name rfl (by cases superclass <;> simp [Attributes.ofList])
  rw [List.forall_mem_map] at hmembers
  have hread := readMembers_meets Label.classDecl.name
    (fun c hc => (hmembers c hc).elim (·.converts rfl) (·.converts rfl)) fun c hc => by
      rw [← unplaced_kind]
      exact (hmembers c hc).imp (·.kind_eq) (·.kind_eq)
  refine converts_of_meets hm (hread.bind fun _ => .lift (attr_eq hname) (.finish _ _)) ?_ rfl
  rw [tokens_classDecl]
  cases superclass <;> simp [tokens_unplaced, List.flatMap_map, writeSuperclass]

theorem IsProgram.converts {n : RawNode} (h : n.IsProgram) {m : RawNode} (hm : m.unplaced = n) :
    m.Converts := by
  obtain ⟨hitems⟩ := h
  obtain ⟨as, children, rfl, -, rfl⟩ := exists_of_unplaced hm
  rw [List.forall_mem_map] at hitems
  have hread := readItems_meets Label.program.name
    (fun c hc => (hitems c hc).elim (·.converts rfl) (·.converts rfl)) fun c hc => by
      rw [← unplaced_kind]
      exact (hitems c hc).imp (·.kind_eq) (·.kind_eq)
  exact converts_of_meets hm (hread.then_finish _ _)
    (by simp [tokens_unplaced, List.flatMap_map]) rfl

/-- The raw tree of a text is in grammar shape and spells the tokens of the text. -/
theorem isProgram_of_parse {source : String} {raw : RawNode} (h : parse source = .ok raw) :
    raw.unplaced.IsProgram ∧ raw.tokens = tokensOf source := by
  obtain ⟨tree, hparse, rfl⟩ := exists_parseInput_of_parse h
  obtain ⟨htokens, hprogram⟩ := spelled_of_parseInput (Input.ofPieces_isUndotted _ _) hparse
  rw [Input.tokens_ofPieces] at htokens
  rw [← tokens_unplaced, unplaced_resolvePositions]
  exact ⟨hprogram, htokens.symm⟩

/-- **A program that has been read converts.** -/
theorem converts_of_parse {source : String} {raw : RawNode} (h : parse source = .ok raw) :
    raw.Converts ∧ raw.tokens = tokensOf source :=
  ⟨(isProgram_of_parse h).1.converts rfl, (isProgram_of_parse h).2⟩

end RawNode

/-! ## Conversion -/

/-- A tree that converts has the cells of all its raw nodes. -/
theorem RawNode.Converts.ofRaw? {raw : RawNode} (h : raw.Converts) :
    (∃ d, (integers raw.tokens).find? (fun d => (readInt32? d).isNone) = some d ∧
      Node.ofRaw? raw = .error (.invalidInteger d)) ∨
    (integers raw.tokens).find? (fun d => (readInt32? d).isNone) = none ∧
      ∃ root, Node.ofRaw? raw = .ok root ∧ root.cells = ↑(numbered 0 raw.postorder) := by
  have hrun := h 0
  have hofRaw : Node.ofRaw? raw = Prod.fst <$> (Node.read raw).run 0 := rfl
  rw [hofRaw]
  cases hfind : (integers raw.tokens).find? fun d => (readInt32? d).isNone with
  | some d =>
    rw [hfind] at hrun
    exact .inl ⟨d, rfl, by rw [hrun]; rfl⟩
  | none =>
    rw [hfind] at hrun
    obtain ⟨root, hrun⟩ := hrun
    obtain ⟨read, hread, hcount, hcells⟩ := Node.read_numbers raw 0 0 root _ hrun
    have hall : read = raw.postorder := hread.eq_of_length (by omega)
    exact .inr ⟨rfl, root, by rw [hrun]; rfl, by simpa [hall] using hcells⟩

variable {source : String} {raw : RawNode}

/-- Either some integer of a program is too large, or its tree has the cells of all raw nodes. -/
theorem ofRaw?_cases (h : parse source = .ok raw) :
    (∃ digits ∈ integers (tokensOf source), 2147483647 < numeral digits ∧
      Node.ofRaw? raw = .error (.invalidInteger digits)) ∨
    (∀ digits ∈ integers (tokensOf source), ¬2147483647 < numeral digits) ∧
      ∃ root, Node.ofRaw? raw = .ok root ∧ root.cells = ↑(RawNode.numbered 0 raw.postorder) := by
  obtain ⟨hconverts, htokens⟩ := RawNode.converts_of_parse h
  have hunread {d : String} (hd : d ∈ integers (tokensOf source)) :
      (readInt32? d).isNone = true ↔ 2147483647 < numeral d := by
    rw [Option.isNone_iff_eq_none, readInt32?_eq_none_iff (isNumeral_of_mem_integers hd)]
  rcases hconverts.ofRaw? with ⟨d, hfind, herror⟩ | ⟨hfind, hroot⟩ <;> rw [htokens] at hfind
  · have hd := List.mem_of_find?_eq_some hfind
    exact .inl ⟨d, hd, (hunread hd).mp (List.find?_some hfind :), herror⟩
  · refine .inr ⟨fun d hd hlarge => ?_, hroot⟩
    exact List.find?_eq_none.mp hfind d hd ((hunread hd).mpr hlarge)

/-- **A program becomes a syntax tree unless some integer of it is too large.** The error names such
an integer. If there is none, the table of the tree has one node for each raw node that is no
written type, with its kind and its position, and no others. -/
theorem ofRaw?_of_parse (h : parse source = .ok raw) :
    ((∃ e, Node.ofRaw? raw = .error e) ↔
      ∃ digits ∈ integers (tokensOf source), 2147483647 < numeral digits) ∧
    (∀ e, Node.ofRaw? raw = .error e → ∃ digits ∈ integers (tokensOf source),
      2147483647 < numeral digits ∧ e = .invalidInteger digits) ∧
    ∀ root, Node.ofRaw? raw = .ok root →
      (Graph.ofTree root).nodes.toList.map (fun n => (n.kind.name, n.position)) =
        raw.postorder.map (fun r => (r.kind, r.position)) ∧
      (Graph.ofTree root).nodes.size = raw.postorder.length := by
  rcases ofRaw?_cases h with ⟨d, hd, hlarge, herror⟩ | ⟨hsmall, root, hroot, hcells⟩
  · rw [herror]
    refine ⟨⟨fun _ => ⟨d, hd, hlarge⟩, fun _ => ⟨_, rfl⟩⟩, ?_, nofun⟩
    rintro _ ⟨⟩
    exact ⟨d, hd, hlarge, rfl⟩
  · have htable := Graph.map_nodes_ofTree hroot hcells
    have hsize := (Graph.size_ofTree hroot).trans (Node.size_eq_length hcells)
    rw [hroot]
    refine ⟨⟨nofun, fun ⟨d, hd, hlarge⟩ => absurd hlarge (hsmall d hd)⟩, nofun, ?_⟩
    rintro _ ⟨⟩
    exact ⟨htable, hsize⟩

theorem exists_parse_of_any (source : String) (p : RawNode → Bool)
    (h : (parse source).toOption.any p = true) :
    ∃ raw, parse source = .ok raw ∧ p raw = true :=
  exists_eq_ok_of_any h

/-- The least integer that is too large, and the one below it. -/
theorem ofRaw?_of_parse_limit :
    (∃ raw, parse "class A { int f() { return 2147483648; } }" = .ok raw ∧
      Node.ofRaw? raw = .error (.invalidInteger "2147483648")) ∧
    ∃ raw root, parse "class A { int f() { return 2147483647; } }" = .ok raw ∧
      Node.ofRaw? raw = .ok root ∧ (Graph.ofTree root).nodes.size = 5 := by
  constructor
  · obtain ⟨raw, hparse, -⟩ := exists_parse_of_any "class A { int f() { return 2147483648; } }"
      (fun _ => true) (by decide +kernel)
    have hall : ∀ d ∈ integers (tokensOf "class A { int f() { return 2147483648; } }"),
        d = "2147483648" := by decide +kernel
    obtain ⟨hiff, hinteger, -⟩ := ofRaw?_of_parse hparse
    obtain ⟨e, he⟩ := hiff.mpr ⟨"2147483648", by decide +kernel, by decide +kernel⟩
    obtain ⟨d, hd, -, rfl⟩ := hinteger e he
    exact ⟨raw, hparse, hall d hd ▸ he⟩
  · obtain ⟨raw, hparse, hread⟩ := exists_parse_of_any "class A { int f() { return 2147483647; } }"
      (fun raw => (Node.ofRaw? raw).isOk && raw.postorder.length == 5) (by decide +kernel)
    obtain ⟨hok, hlength⟩ := Bool.and_eq_true_iff.mp hread
    cases hroot : Node.ofRaw? raw with
    | error e => rw [hroot] at hok; cases hok
    | ok root =>
      obtain ⟨-, hsize⟩ := (ofRaw?_of_parse hparse).2.2 root hroot
      exact ⟨raw, root, hparse, hroot, hsize.trans (beq_iff_eq.mp hlength)⟩

end MiniJava
