import MiniJava.Proofs.Grammar.Completeness.Program
import MiniJava.Proofs.Grammar.Conversion
import MiniJava.Proofs.Layout.Compilation
import MiniJava.Proofs.Paraphrase.Reading
import MiniJava.Proofs.Paraphrase.Tokens

/-!
# Redundant parentheses

Parentheses may be put around any expressions of a program, as often as one likes, except around the
name of an import. If the program is accepted, so is what comes out, and both have the same code or
fail with the same message (`compile_wrapped`). Only warnings may differ: a division by a zero in
parentheses gets none.

A text that spells the program with more parentheses is read as that (`exists_parse_eq_ok`), and its
tree paraphrases the tree of the program (`exists_paraphrase`). A paraphrase breaks the same rules
and has the same three-address code.
-/

namespace MiniJava

open Node (Paraphrases)
open Grammar (typeNode)
open RawNode

/-! ## Trees -/

section

variable {t : SymbolTable} {n n' : Node}

/-! Where the trees without positions are paraphrases, the trees say the same. -/

theorem ofTree?_eq_of_unplaced (h : Paraphrases t .part n.unplaced n'.unplaced) :
    SymbolTable.ofTree? n' = SymbolTable.ofTree? n := by
  rw [← SymbolTable.ofTree?_eq (n'.paraphrases_unplaced t .part), SymbolTable.ofTree?_eq h,
    SymbolTable.ofTree?_eq (n.paraphrases_unplaced t .part)]

theorem violations_analyze_of_unplaced (h : Paraphrases t .part n.unplaced n'.unplaced) :
    violations (analyze t n') = violations (analyze t n) := by
  rw [← violations_analyze (n'.paraphrases_unplaced t .part), violations_analyze h,
    violations_analyze (n.paraphrases_unplaced t .part)]

theorem lower_eq_of_unplaced (h : Paraphrases t .part n.unplaced n'.unplaced) :
    (lower t n').mapError Ir.LoweringError.unplaced =
      (lower t n).mapError Ir.LoweringError.unplaced := by
  rw [← lower_eq (n'.paraphrases_unplaced t .part), lower_eq h,
    lower_eq (n.paraphrases_unplaced t .part)]

end

/-! ## Texts -/

variable {a b : String} {raw w : RawNode} {root : Node} {table : SymbolTable}

/-- A text that spells a program is parsed as that program. -/
theorem exists_parse_eq_ok (hw : w.IsProgram) (hb : unknownPieces (pieces 0 b.toList) = [])
    (htokens : tokensOf b = w.tokens) : ∃ raw', parse b = .ok raw' ∧ raw'.unplaced = w := by
  let s : Input := .ofPieces (byteLength b.toList) (pieces 0 b.toList)
  have hs : s.tokens = w.tokens ++ [] := by
    rw [Input.tokens_ofPieces, htokens, List.append_nil]
  obtain ⟨tree, r, hrun, -, htree⟩ :=
    Grammar.program_accepts (n := s.left + 1) hw s (Nat.lt_succ_self _) hs
  refine ⟨tree.resolvePositions (.ofText b.toList), ?_, ?_⟩
  · have hinput : parseInput s = .ok tree := parseInput_eq_ok hrun
    unfold parse
    simp only [hb]
    rw [hinput]
  · rw [unplaced_resolvePositions, htree]

/-- A program with more parentheses becomes a syntax tree if the program does, for it has the same
integers. -/
theorem exists_ofRaw?_eq_ok (hparse : parse a = .ok raw) (hroot : Node.ofRaw? raw = .ok root)
    (hwraps : raw.unplaced.Wraps table w) {raw' : RawNode} (hraw' : raw'.unplaced = w) :
    ∃ root', Node.ofRaw? raw' = .ok root' := by
  obtain ⟨hprogram, -⟩ := isProgram_of_parse hparse
  have hintegers : Token.integers raw'.tokens = Token.integers raw.tokens := by
    rw [← tokens_unplaced raw', hraw', hwraps.integers_tokens, tokens_unplaced]
  rcases (hprogram.converts rfl).ofRaw? with ⟨d, -, herror⟩ | ⟨hsmall, -⟩
  · cases hroot.symm.trans herror
  rcases ((hwraps.isProgram hprogram).converts hraw').ofRaw? with ⟨d, hlarge, -⟩ | ⟨-, root', h, -⟩
  · rw [hintegers, hsmall] at hlarge
    cases hlarge
  · exact ⟨root', h⟩

/-- **A program with more parentheses is a paraphrase of the program.** -/
theorem exists_paraphrase (hparse : parse a = .ok raw) (hroot : Node.ofRaw? raw = .ok root)
    (hwraps : raw.unplaced.Wraps table w) (hb : unknownPieces (pieces 0 b.toList) = [])
    (htokens : tokensOf b = w.tokens) :
    ∃ raw' root', parse b = .ok raw' ∧ Node.ofRaw? raw' = .ok root' ∧
      Paraphrases table .part root.unplaced root'.unplaced := by
  obtain ⟨raw', hparse', hraw'⟩ := exists_parse_eq_ok
    (hwraps.isProgram (isProgram_of_parse hparse).1) hb htokens
  obtain ⟨root', hroot'⟩ := exists_ofRaw?_eq_ok hparse hroot hwraps hraw'
  obtain ⟨hwellFormed, hlabel⟩ := wellFormed_of_parse hparse hroot
  have hread : Node.ofRaw? raw.unplaced = .ok root.unplaced := by
    rw [Node.ofRaw?_unplaced, hroot]
    rfl
  have hread' : Node.ofRaw? w = .ok root'.unplaced := by
    rw [← hraw', Node.ofRaw?_unplaced, hroot']
    rfl
  refine ⟨raw', root', hparse', hroot',
    paraphrases_of_ofRaw? hwraps hread hread' (Node.wellFormed_unplaced_iff.mpr hwellFormed) ?_⟩
  rw [Node.IsExpr, Node.label_unplaced, hlabel]
  exact Bool.false_ne_true

/-- **Redundant parentheses are transparent.** If a text is accepted, any text that spells its tree
with more parentheses around expressions other than names of imports, whatever its layout, is
accepted too, with the same declarations. Without optimization both compile to the same code, or
both fail in the same way with the same message. -/
theorem compile_wrapped (options : CompileOptions) (hoptimize : options.optimize = false)
    (h : Accepted a root table) (hparse : parse a = .ok raw)
    (hwraps : raw.unplaced.Wraps table w) (hb : unknownPieces (pieces 0 b.toList) = [])
    (htokens : tokensOf b = w.tokens) :
    (∃ root', Accepted b root' table) ∧
    ((∃ c d, compile options a = .ok c ∧ compile options b = .ok d ∧
      c.ir = d.ir ∧ c.assembly = d.assembly) ∨
    ∃ e f, compile options a = .error e ∧ compile options b = .error f ∧
      e.ctorIdx = f.ctorIdx ∧ e.message = f.message) := by
  obtain ⟨raw₀, hparse₀, hroot⟩ := h.tree
  cases hparse.symm.trans hparse₀
  obtain ⟨raw', root', hparse', hroot', hpara⟩ := exists_paraphrase hparse hroot hwraps hb htokens
  have hchecked : analyze table root' = [] := by
    have hviolations := violations_analyze_of_unplaced hpara
    rw [h.checked] at hviolations
    exact List.map_eq_nil_iff.mp hviolations
  have h' : Accepted b root' table :=
    ⟨⟨raw', hparse', hroot'⟩, (ofTree?_eq_of_unplaced hpara).trans h.declared, hchecked⟩
  refine ⟨⟨root', h'⟩, ?_⟩
  have hcompile {source : String} {root : Node} (h : Accepted source root table) :
      compile options source = codeOf options table [] root := by
    rw [h.compile_eq, generate, hoptimize, h.checked]
    rfl
  rw [hcompile h, hcompile h']
  -- The warnings are left out of what is compared.
  rcases results_or_failures (codeOf_agree (fun c => (c.ir, c.assembly))
    (lower_eq_of_unplaced hpara).symm fun _ _ => rfl) with ⟨c, d, hc, hd, hsame⟩ | hfail
  · exact .inl ⟨c, d, hc, hd, (Prod.mk.inj hsame).1, (Prod.mk.inj hsame).2⟩
  · exact .inr hfail

/-- A statement, an operand, a receiver and a result in parentheses. -/
theorem compile_wrapped_call :
    let options : CompileOptions := {}
    let a := "import io; class A { int f(int x) { io.print(x + 1); return this.f(x); } }"
    let b := "import io; class A { int f(int x) { (io.print(((x)) + 1)); return ((this).f(x)); } }"
    ∃ root table raw w, options.optimize = false ∧ Accepted a root table ∧ parse a = .ok raw ∧
      raw.unplaced.Wraps table w ∧ unknownPieces (pieces 0 b.toList) = [] ∧ tokensOf b = w.tokens ∧
      (∃ root', Accepted b root' table) ∧
      ((∃ c d, compile options a = .ok c ∧ compile options b = .ok d ∧
        c.ir = d.ir ∧ c.assembly = d.assembly) ∨
      ∃ e f, compile options a = .error e ∧ compile options b = .error f ∧
        e.ctorIdx = f.ctorIdx ∧ e.message = f.message) := by
  intro options a b
  let x := plain .varRef [("value", "x")] []
  let print (x : RawNode) := plain .call [("value", "print")] [plain .varRef [("value", "io")] [],
    plain .binary [("op", "+")] [x, plain .intLit [("value", "1")] []]]
  let recur (receiver : RawNode) := plain .call [("value", "f")] [receiver, x]
  let program (call result : RawNode) := plain .program [] [plain .importDecl [("value", "io")] [],
    plain .classDecl [("name", "A")] [plain .methodDecl
      [("methodName", "f"), ("isPublic", "false"), ("isStatic", "false")]
      [typeNode "IntType" [] [], plain .param [("name", "x")] [typeNode "IntType" [] []],
        plain .exprStmt [] [call], plain .returning [] [result]]]]
  let paren (e : RawNode) := plain .paren [] [e]
  let this := plain .this [] []
  let w := program (paren (print (paren (paren x)))) (paren (recur (paren this)))
  have hx : x.IsExpr := .varRef "x"
  have hprint : (print x).IsExpr := .call "print" (.varRef "io") (by decide)
    (List.forall_mem_singleton.mpr (.binary .add hx (.intLit "1") (by decide) (by decide)))
  have hrecur : (recur this).IsExpr :=
    .call "f" .this (by decide) (List.forall_mem_singleton.mpr hx)
  have hprogram : (program (print x) (recur this)).IsProgram := by
    have hbody : ∀ n ∈ [plain .exprStmt [] [print x], plain .returning [] [recur this]],
        n.IsVarDecl ∨ n.IsStmt :=
      List.forall_mem_cons.mpr ⟨.inr (.exprStmt hprint), List.forall_mem_singleton.mpr
        (.inr (.returning (some _) (by rintro _ ⟨⟩; exact hrecur)))⟩
    have hmethod := IsMethod.mk false false "f" (.flat .int)
      (List.forall_mem_singleton.mpr (.mk "x" (.flat .int))) hbody
    exact .mk (List.forall_mem_cons.mpr ⟨.inl (.mk "io"), List.forall_mem_singleton.mpr
      (.inr (.mk "A" none (List.forall_mem_singleton.mpr (.inr hmethod))))⟩)
  obtain ⟨root, table, h, himported⟩ := Accepted.exists_of_any a
    (fun _ table => !table.isImported "x") (by decide +kernel)
  obtain ⟨raw, hparse, hraw⟩ := exists_parse_eq_ok (b := a) hprogram (by decide +kernel)
    (by decide +kernel)
  have hwrapped : raw.unplaced.Wraps table w := by
    have hname (name : String) (hname : x = plain .varRef [("value", name)] []) :
        table.isImported name = false := by
      have hvalue : some "x" = some name := congrArg (fun n => n.get? "value") hname
      rw [← Option.some.inj hvalue, ← Bool.not_eq_true']
      exact himported
    have hother {e : RawNode} (hkind : e.kind ≠ Label.varRef.name) (name : String)
        (he : e = plain .varRef [("value", name)] []) : table.isImported name = false :=
      absurd (congrArg RawNode.kind he) hkind
    have hx' : Wraps table x (paren (paren x)) := .paren (.paren (.refl x) hx hname) hx hname
    have hprint' : Wraps table (print x) (paren (print (paren (paren x)))) :=
      .paren (.row (.cons (.refl _) (.cons (.row (.cons hx' (.cons (.refl _) .nil))) .nil))) hprint
        (hother (by decide))
    have hrecur' : Wraps table (recur this) (paren (recur (paren this))) :=
      .paren (.row (.cons (.paren (.refl this) .this (hother (by decide))) (.cons (.refl x) .nil)))
        hrecur (hother (by decide))
    have hbody : List.Forall₂ (Wraps table)
        [plain .exprStmt [] [print x], plain .returning [] [recur this]]
        [plain .exprStmt [] [paren (print (paren (paren x)))],
          plain .returning [] [paren (recur (paren this))]] :=
      .cons (.row (.cons hprint' .nil)) (.cons (.row (.cons hrecur' .nil)) .nil)
    rw [hraw]
    exact .row (.cons (.refl _) (.cons (.row (.cons (.row (.cons (.refl _) (.cons (.refl _) hbody)))
      .nil)) .nil))
  have hb : unknownPieces (pieces 0 b.toList) = [] := by decide +kernel
  have htokens : tokensOf b = w.tokens := by decide +kernel
  exact ⟨root, table, raw, w, rfl, h, hparse, hwrapped, hb, htokens,
    compile_wrapped options rfl h hparse hwrapped hb htokens⟩

end MiniJava
