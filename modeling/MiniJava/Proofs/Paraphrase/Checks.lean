import MiniJava.Check
import MiniJava.Proofs.Paraphrase.Declarations

/-!
# Paraphrases pass the same checks

The checks find the same violations in a paraphrase, in the same order (`violations_analyze`). They
look at one node after the other, so it is enough to see this of nodes at corresponding places; no
check finds anything wrong with parentheses.
-/

namespace MiniJava

open Node (Paraphrases Place Retraces)

/-- The rules that are broken, wherever. -/
abbrev violations (es : List SemanticError) : List Violation := es.map SemanticError.violation

variable {t : SymbolTable}

/-! ## Walking -/

/-- **On a walk the same is found if it is at corresponding nodes.** -/
theorem violations_walk {check : Option Scope × Node → List SemanticError}
    (hpart : ∀ scope? n n', (∀ sc ∈ scope?, ∃ head, sc = Scope.ofMethod t head) →
      Paraphrases t .part n n' →
      violations (check (scope?, n')) = violations (check (scope?, n)))
    (hparen : ∀ scope? i p inner, check (scope?, ⟨i, p, .paren inner⟩) = [])
    {root root' : Node} (h : Paraphrases t .part root root') :
    violations ((walk (Scope.ofMethod t) root').flatMap check) =
      violations ((walk (Scope.ofMethod t) root).flatMap check) := by
  have within {last : Option Scope} (hlast : ∀ sc ∈ last, ∃ head, sc = Scope.ofMethod t head)
      {ns ns' : List Node} (h : Retraces t ns ns') :
      violations ((withScopes (Scope.ofMethod t) last ns').flatMap check) =
        violations ((withScopes (Scope.ofMethod t) last ns).flatMap check) := by
    induction h generalizing last with
    | nil => rfl
    | paren _ ih =>
      rw [withScopes, List.flatMap_cons, hparen, List.nil_append]
      exact ih hlast
    | @node n n' ns ns' here _ ih =>
      -- A method opens the same scope in both walks, and other nodes stand in the last one.
      obtain ⟨scope?, hscope, hns, hns'⟩ : ∃ scope? : Option Scope,
          (∀ sc ∈ scope?, ∃ head, sc = Scope.ofMethod t head) ∧
          withScopes (Scope.ofMethod t) last (n :: ns) =
            (scope?, n) :: withScopes (Scope.ofMethod t) scope? ns ∧
          withScopes (Scope.ofMethod t) last (n' :: ns') =
            (scope?, n') :: withScopes (Scope.ofMethod t) scope? ns' := by
        cases here with
        | @node _ i j p q k =>
          cases k with
          | methodDecl head =>
            exact ⟨some (Scope.ofMethod t head), by rintro _ ⟨⟩; exact ⟨head, rfl⟩, rfl, rfl⟩
          | _ => exact ⟨last, hlast, rfl, rfl⟩
      rw [hns, hns', List.flatMap_cons, List.flatMap_cons, violations, List.map_append,
        violations, List.map_append]
      exact congr (congrArg _ (hpart scope? n n' hscope here)) (ih hscope)
  exact within (by rintro _ ⟨⟩) h.retraces

/-! ## Names declared twice -/

theorem map_fst_repeats {ds ds' : List (String × Position)}
    (h : ds'.map Prod.fst = ds.map Prod.fst) (seen : List String) :
    (repeats seen ds').map Prod.fst = (repeats seen ds).map Prod.fst := by
  induction ds generalizing ds' seen with
  | nil =>
    rw [List.map_nil, List.map_eq_nil_iff] at h
    rw [h]
  | cons d ds ih =>
    cases ds' with
    | nil => cases h
    | cons d' ds' =>
      obtain ⟨hd, hds⟩ := List.cons.inj h
      obtain ⟨name, p⟩ := d
      obtain ⟨name', p'⟩ := d'
      cases hd
      unfold repeats
      split
      · exact congrArg (name :: ·) (ih hds seen)
      · exact ih hds (name :: seen)

theorem violations_duplicatesAmong {ns : List (Node × Node)}
    (h : ∀ x ∈ ns, Paraphrases t .part x.1 x.2) (violation : String → Violation) :
    violations (duplicatesAmong violation (ns.map Prod.snd)) =
      violations (duplicatesAmong violation (ns.map Prod.fst)) := by
  let declared (n : Node) : Option (String × Position) :=
    n.kind.declaredName?.map fun name => (name, n.position)
  have heq (ns : List Node) : violations (duplicatesAmong violation ns) =
      ((repeats [] (ns.filterMap declared)).map Prod.fst).map violation := by
    rw [duplicatesAmong, violations, List.map_map, List.map_map]
    rfl
  have hnames (ns : List Node) :
      (ns.filterMap declared).map Prod.fst = ns.filterMap fun n => n.kind.declaredName? := by
    rw [List.map_filterMap]
    refine List.filterMap_congr fun n _ => ?_
    cases hname : n.kind.declaredName? <;> simp [declared, hname]
  have hname (x : Node × Node) (hx : x ∈ ns) : x.2.kind.declaredName? = x.1.kind.declaredName? := by
    obtain ⟨n, n'⟩ := x
    cases h _ hx with
    | @node _ i j p q k => cases k <;> rfl
  have hsame : ((ns.map Prod.snd).filterMap declared).map Prod.fst =
      ((ns.map Prod.fst).filterMap declared).map Prod.fst := by
    rw [hnames, hnames]
    exact SymbolTable.filterMap_eq hname
  rw [heq, heq, map_fst_repeats hsame]

theorem violations_duplicatesFrom {ns ns' : List Node} (h : Retraces t ns ns')
    (seen : List String) :
    violations (duplicatesFrom seen ns') = violations (duplicatesFrom seen ns) := by
  induction h generalizing seen with
  | nil => rfl
  | paren _ ih => exact ih seen
  | node here _ ih =>
    cases here with
    | @node _ i j p q k _ parts =>
      cases k with
      | importDecl path =>
        simp only [Kind.map, duplicatesFrom]
        split
        · exact congrArg (Violation.duplicateImport (simpleName path) :: ·) (ih seen)
        · exact ih (simpleName path :: seen)
      | classDecl name superclass fields methods =>
        have hfields := violations_duplicatesAmong
          (fun x hx => parts x (List.mem_append_left _ hx)) .duplicateField
        have hmethods := violations_duplicatesAmong
          (fun x hx => parts x (List.mem_append_right _ hx)) .duplicateMethod
        simp only [Kind.map, duplicatesFrom, List.map_append, hfields, hmethods, ih seen]
      | methodDecl head params locals body =>
        have hparams := violations_duplicatesAmong (fun x hx =>
          parts x (List.mem_append_left _ (List.mem_append_left _ hx))) .duplicateParameter
        have hlocals := violations_duplicatesAmong (fun x hx =>
          parts x (List.mem_append_left _ (List.mem_append_right _ hx))) .duplicateLocal
        simp only [Kind.map, duplicatesFrom, List.map_append, hparams, hlocals, ih seen]
      | _ => exact ih seen

theorem violations_checkDuplicates {root root' : Node} (h : Paraphrases t .part root root') :
    violations (checkDuplicates root') = violations (checkDuplicates root) :=
  violations_duplicatesFrom h.retraces []

/-! ## Structure -/

theorem lastReturns_eq_of {ns : List (Node × Node)}
    (h : ∀ x ∈ ns, x.2.alwaysReturns = x.1.alwaysReturns) :
    lastReturns (ns.map Prod.snd) = lastReturns (ns.map Prod.fst) := by
  induction ns with
  | nil => rfl
  | cons x xs ih =>
    obtain ⟨hx, hxs⟩ := List.forall_mem_cons.mp h
    cases xs with
    | nil => exact hx
    | cons y ys => exact ih hxs

theorem alwaysReturns_eq {n n' : Node} (h : Paraphrases t .part n n') :
    n'.alwaysReturns = n.alwaysReturns := by
  generalize hplace : Place.part = place at h
  induction h with
  | paren => cases hplace
  | @node _ i j p q k _ _ _ ih =>
    replace ih : ∀ x ∈ k.parts, x.2.alwaysReturns = x.1.alwaysReturns := fun x hx => ih x hx rfl
    cases k with
    | returning v => cases v <;> rfl
    | block ss => exact lastReturns_eq_of ih
    | ifElse c thenBranch elseBranch =>
      cases elseBranch with
      | none => rfl
      | some elseBranch =>
        have hthen := ih thenBranch List.mem_cons_self
        have helse := ih elseBranch mem_second
        simp only [Kind.map, Option.map_some, Node.alwaysReturns, hthen, helse]
    | _ => rfl

theorem violations_checkType (t : SymbolTable) (n n' : Node) (type : TypeExpr) :
    violations (t.checkType n' type) = violations (t.checkType n type) := by
  unfold SymbolTable.checkType
  cases type.className? with
  | none => rfl
  | some name => dsimp only; split <;> rfl

theorem violations_checkVarargsPlace {ns : List (Node × Node)}
    (h : ∀ x ∈ ns, Paraphrases t .part x.1 x.2) :
    violations (checkVarargsPlace (ns.map Prod.snd)) =
      violations (checkVarargsPlace (ns.map Prod.fst)) := by
  unfold checkVarargsPlace
  have hfilter : ns.dropLast.filter (SymbolTable.isVarargsParam ∘ Prod.snd) =
      ns.dropLast.filter (SymbolTable.isVarargsParam ∘ Prod.fst) :=
    List.filter_congr fun x hx =>
      SymbolTable.isVarargsParam_eq (h x (List.dropLast_subset _ hx))
  rw [← List.map_dropLast, ← List.map_dropLast, List.filter_map, List.filter_map, hfilter]
  simp only [violations, List.map_map]
  rfl

theorem violations_checkStructureAt (scope? : Option Scope) {n n' : Node}
    (h : Paraphrases t .part n n') :
    violations (checkStructureAt t (scope?, n')) = violations (checkStructureAt t (scope?, n)) := by
  cases h with
  | @node _ i j p q k _ parts =>
    unfold checkStructureAt
    cases k with
    | varDecl name type =>
      simp only [Kind.map, List.map_append, violations_checkType t ⟨i, p, .varDecl name type⟩]
      congr 1
      split <;> rfl
    | param name type => exact violations_checkType t _ _ type
    | newArray element size => exact violations_checkType t _ _ element
    | methodDecl head params locals body =>
      have hlast := lastReturns_eq_of fun x hx =>
        alwaysReturns_eq (parts x (List.mem_append_right _ hx))
      have hplace := violations_checkVarargsPlace fun x hx =>
        parts x (List.mem_append_left _ (List.mem_append_left _ hx))
      have htype := violations_checkType t ⟨i, p, .methodDecl head (params.map Prod.fst)
        (locals.map Prod.fst) (body.map Prod.fst)⟩ ⟨j, q, .methodDecl head (params.map Prod.snd)
        (locals.map Prod.snd) (body.map Prod.snd)⟩ head.returnType
      simp only [Kind.map, List.map_append, htype, hplace, hlast,
        apply_ite (List.map SemanticError.violation)]
      rfl
    | this | newObject => simp only [Kind.map]; split <;> rfl
    | assign | arrayAssign =>
      cases scope? with
      | none => rfl
      | some sc => simp only [Kind.map]; split <;> rfl
    | _ => rfl

theorem violations_checkStructure {root root' : Node} (h : Paraphrases t .part root root') :
    violations (checkStructure (Scope.ofMethod t) t root') =
      violations (checkStructure (Scope.ofMethod t) t root) :=
  violations_walk (fun scope? _ _ _ h => violations_checkStructureAt scope? h)
    (fun _ _ _ _ => rfl) h

/-! ## Types -/

theorem Node.Paraphrases.describe_eq {place : Place} {n n' : Node} (h : Paraphrases t place n n') :
    n'.describe = n.describe := by
  induction h with
  | paren _ _ _ ih => exact ih
  | @node _ i j p q k _ _ ih =>
    cases k with
    | paren inner => exact ih inner List.mem_cons_self
    | _ => rfl

namespace Scope

variable {sc : Scope} {P : Vars → Prop} {n n' c c' : Node}

/-- The types of a row of expressions, each with what is demanded of it. -/
theorem Alike.zipWith_typeOf? {cs : List (Node × Node)} (h : ∀ x ∈ cs, sc.Alike P x.1 x.2)
    (ds : List Ty) : (cs.map Prod.snd).zipWith (fun e d => sc.typeOf? d e) ds =
      (cs.map Prod.fst).zipWith (fun e d => sc.typeOf? d e) ds := by
  induction cs generalizing ds with
  | nil => rfl
  | cons x xs ih =>
    obtain ⟨hx, hxs⟩ := List.forall_mem_cons.mp h
    cases ds with
    | nil => rfl
    | cons d ds => simp only [List.map_cons, List.zipWith_cons_cons, hx.type, ih hxs]

theorem violations_checkOperands (n n' : Node) {l l' r r' : Node} (hl : sc.Alike P l l')
    (hr : sc.Alike P r r') (op : BinaryOp) :
    violations (sc.checkOperands n' op l' r') = violations (sc.checkOperands n op l r) := by
  simp only [checkOperands, hl.operandDemands hr, hl.type, hr.type]
  -- Every branch reports nothing or one violation at the operation.
  repeat (first | rfl | split)

theorem violations_checkCondition (hc : sc.Alike P c c') (construct : Construct) :
    violations (sc.checkCondition construct c') = violations (sc.checkCondition construct c) := by
  simp only [checkCondition, hc.type]
  repeat (first | rfl | split)

theorem violations_checkIndex (hc : sc.Alike P c c') :
    violations (sc.checkIndex c') = violations (sc.checkIndex c) := by
  simp only [checkIndex, hc.type]
  repeat (first | rfl | split)

theorem violations_checkArray (hc : sc.Alike P c c') (hdescribe : c'.describe = c.describe) :
    violations (sc.checkArray c') = violations (sc.checkArray c) := by
  simp only [checkArray, hc.type, hdescribe]
  repeat (first | rfl | split)

theorem violations_checkElements (n n' : Node) {cs : List (Node × Node)}
    (h : ∀ x ∈ cs, sc.Alike P x.1 x.2) :
    violations (sc.checkElements n' (cs.map Prod.snd)) =
      violations (sc.checkElements n (cs.map Prod.fst)) := by
  simp only [checkElements, Alike.elementDemands h, Alike.zipWith_typeOf? h]
  split <;> rfl

theorem violations_checkTypesAt (hplaced : sc.placed = none)
    (h : Paraphrases sc.table .part n n') :
    violations (sc.checkTypesAt n') = violations (sc.checkTypesAt n) := by
  cases h with
  | @node _ i j p q k below =>
    have halike (x : Node × Node) (hx : x ∈ k.children) : sc.Alike (fun _ => True) x.1 x.2 :=
      (below x hx).alike hplaced
    have hdescribe (x : Node × Node) (hx : x ∈ k.children) : x.2.describe = x.1.describe :=
      (below x hx).describe_eq
    unfold checkTypesAt
    cases k with
    | binary op l r =>
      exact violations_checkOperands _ _ (halike l List.mem_cons_self)
        (halike r mem_second) op
    | ifElse c | whileLoop c =>
      exact violations_checkCondition (halike c List.mem_cons_self) _
    | arrayLength array =>
      exact violations_checkArray (halike array List.mem_cons_self)
        (hdescribe array List.mem_cons_self)
    | arrayLit elements => exact violations_checkElements _ _ halike
    | arrayAccess array index =>
      have harray := violations_checkArray (halike array List.mem_cons_self)
        (hdescribe array List.mem_cons_self)
      have hindex :=
        violations_checkIndex (halike index mem_second)
      simp only [Kind.map, List.map_append, harray, hindex]
    | unary op operand =>
      simp only [Kind.map, (halike operand List.mem_cons_self).type]
      repeat (first | rfl | split)
    | assign target value =>
      simp only [Kind.map, (halike value List.mem_cons_self).type]
      repeat (first | rfl | split)
    | arrayAssign target index value =>
      have hindex := violations_checkIndex (halike index List.mem_cons_self)
      have hvalue := (halike value mem_second).type
      simp only [Kind.map, List.map_append, hindex, hvalue]
      congr 1
      repeat (first | rfl | split)
    | returning value =>
      cases value with
      | none =>
        simp only [Kind.map, Option.map_none]
        repeat (first | rfl | split)
      | some value =>
        simp only [Kind.map, Option.map_some, (halike value List.mem_cons_self).type]
        repeat (first | rfl | split)
    | _ => rfl

/-! ## Names -/

theorem violations_checkArgument (n n' : Node) (method : String) (expected : Ty)
    (found : Option Ty) : violations (sc.checkArgument n' method expected found) =
      violations (sc.checkArgument n method expected found) := by
  unfold checkArgument
  repeat (first | rfl | split)

/-- What is found for each argument is found again. -/
theorem violations_flatMap {α : Type} {f g : α → List SemanticError}
    (h : ∀ a, violations (f a) = violations (g a)) (as : List α) :
    violations (as.flatMap f) = violations (as.flatMap g) := by
  rw [violations, violations, List.map_flatMap, List.map_flatMap]
  exact List.flatMap_congr fun a _ => h a

theorem violations_checkRow (n n' : Node) (method : String) (last : Ty)
    (found : List (Option Ty)) : violations (sc.checkRow n' method last found) =
      violations (sc.checkRow n method last found) := by
  have heach : violations (found.flatMap (sc.checkArgument n' method last.element)) =
      violations (found.flatMap (sc.checkArgument n method last.element)) :=
    violations_flatMap (fun a => violations_checkArgument n n' method last.element a) found
  unfold checkRow
  split
  · split
    · exact violations_checkArgument n n' method last _
    · exact heach
  · exact heach

theorem violations_checkArguments (n n' : Node) {receiver receiver' : Node}
    (hr : sc.Alike P receiver receiver') (method : String) {cs : List (Node × Node)}
    (h : ∀ x ∈ cs, sc.Alike P x.1 x.2) :
    violations (sc.checkArguments n' receiver' method (cs.map Prod.snd)) =
      violations (sc.checkArguments n receiver method (cs.map Prod.fst)) := by
  have htypes : sc.argumentTypes receiver' method (cs.map Prod.snd) =
      sc.argumentTypes receiver method (cs.map Prod.fst) := by
    rw [argumentTypes, hr.argumentDemands, Alike.zipWith_typeOf? h, argumentTypes]
  have hsingle (fs : List (Variable × Option Ty)) :
      violations (fs.flatMap fun x => sc.checkArgument n' method x.1.type x.2) =
        violations (fs.flatMap fun x => sc.checkArgument n method x.1.type x.2) :=
    violations_flatMap (fun x => violations_checkArgument n n' method x.1.type x.2) fs
  simp only [checkArguments, htypes, List.length_map, apply_ite (List.map SemanticError.violation),
    List.map_append, hsingle]
  refine if_congr Iff.rfl rfl (congrArg (_ ++ ·) ?_)
  split
  · exact violations_checkRow n n' method _ _
  · rfl

theorem violations_checkCall (n n' : Node) {receiver receiver' : Node}
    (hr : sc.Alike P receiver receiver') (method : String) {cs : List (Node × Node)}
    (h : ∀ x ∈ cs, sc.Alike P x.1 x.2) :
    violations (sc.checkCall n' receiver' method (cs.map Prod.snd)) =
      violations (sc.checkCall n receiver method (cs.map Prod.fst)) := by
  have harguments := violations_checkArguments n n' hr method h
  simp only [checkCall, hr.type, hr.isLocalReceiver]
  -- Every branch reports nothing, one violation at the call, or those of the arguments.
  repeat (first | rfl | exact harguments | split)

theorem violations_checkNamesAt (hplaced : sc.placed = none)
    (h : Paraphrases sc.table .part n n') :
    violations (sc.checkNamesAt n') = violations (sc.checkNamesAt n) := by
  cases h with
  | @node _ i j p q k below =>
    have halike (x : Node × Node) (hx : x ∈ k.children) : sc.Alike (fun _ => True) x.1 x.2 :=
      (below x hx).alike hplaced
    unfold checkNamesAt
    cases k with
    | call receiver method arguments =>
      exact violations_checkCall _ _ (halike receiver List.mem_cons_self) method
        fun x hx => halike x (List.mem_cons_of_mem _ hx)
    | varRef | assign | arrayAssign => simp only [Kind.map]; split <;> rfl
    | _ => rfl

end Scope

theorem violations_checkTypes {root root' : Node} (h : Paraphrases t .part root root') :
    violations (checkTypes (Scope.ofMethod t) root') =
      violations (checkTypes (Scope.ofMethod t) root) := by
  refine violations_walk (fun scope? n n' hscope h => ?_) (fun scope? _ _ _ => ?_) h
  · cases scope? with
    | none => rfl
    | some sc =>
      obtain ⟨head, rfl⟩ := hscope sc rfl
      exact Scope.violations_checkTypesAt rfl h
  · cases scope? <;> rfl

theorem violations_checkNames {root root' : Node} (h : Paraphrases t .part root root') :
    violations (checkNames (Scope.ofMethod t) root') =
      violations (checkNames (Scope.ofMethod t) root) := by
  refine violations_walk (fun scope? n n' hscope h => ?_) (fun scope? _ _ _ => ?_) h
  · cases scope? with
    | none => rfl
    | some sc =>
      obtain ⟨head, rfl⟩ := hscope sc rfl
      exact Scope.violations_checkNamesAt rfl h
  · cases scope? <;> rfl

/-! ## All checks -/

/-- **The checks find the same violations in a paraphrase.** -/
theorem violations_analyze {root root' : Node} (h : Paraphrases t .part root root') :
    violations (analyze t root') = violations (analyze t root) := by
  simp only [analyze, analyzeWith, List.map_append, violations_checkDuplicates h,
    violations_checkStructure h, violations_checkTypes h, violations_checkNames h]

end MiniJava
