import Mathlib.Algebra.Ring.Nat
import MiniJava.Proofs.Emission.Blocks
import MiniJava.Proofs.Emission.Depth
import MiniJava.Proofs.Lowering.Regular

/-!
# Labels and jumps

No label is in a unit twice, and each jump of a method leads to a label of the same method. The code
is emitted for a method has the labels of its three-address code and two more for each comparison
(`Jvm.labels_blocks`), and it jumps to where the three-address code does and to the two labels of
each comparison (`Jvm.targets_blocks`). The labels of comparisons are those of no construct, so again
all labels differ and each jump leads to one of them (`labels_of_lower`).
-/

namespace MiniJava

open Ir (IsLabel Operand)

namespace Jvm

/-! ## The labels of comparisons -/

/-- The labels of a comparison. -/
def comparisonLabels (n : Nat) : List String :=
  ["cmp_true_" ++ toString n, "cmp_end_" ++ toString n]

/-- The labels of so many comparisons, which are numbered from `n` on. -/
def comparisonLabelsFrom (n count : Nat) : List String :=
  (List.range' n count).flatMap comparisonLabels

variable {l : String} {n k : Nat}

theorem mem_comparisonLabelsFrom : l ∈ comparisonLabelsFrom n k ↔
    ∃ j, (n ≤ j ∧ j < n + k) ∧ l ∈ comparisonLabels j := by
  simp [comparisonLabelsFrom, List.mem_range'_1]

theorem comparisonLabelsFrom_add (n j k : Nat) : comparisonLabelsFrom n (j + k) =
    comparisonLabelsFrom n j ++ comparisonLabelsFrom (n + j) k := by
  unfold comparisonLabelsFrom
  rw [← List.flatMap_append, List.range'_append_1]

/-- The labels of a comparison are not those of constructs. -/
theorem not_isLabel_of_mem_comparisonLabels (hl : l ∈ comparisonLabels n) : ¬IsLabel l := by
  rintro ⟨k, p, hp, j, rfl⟩
  have hstem := Ir.LabelKind.isStem hp
  rcases List.mem_cons.mp hl with heq | hl
  · obtain ⟨rfl, -⟩ := append_toString_inj hstem (by decide) heq
    revert hp
    cases k <;> decide
  · obtain ⟨rfl, -⟩ := append_toString_inj hstem (by decide) (List.mem_singleton.mp hl)
    revert hp
    cases k <;> decide

/-- Different comparisons have different labels. -/
theorem eq_of_mem_comparisonLabels (hn : l ∈ comparisonLabels n) (hk : l ∈ comparisonLabels k) :
    n = k := by
  simp only [comparisonLabels, List.mem_cons, List.not_mem_nil, or_false] at hn hk
  rcases hn with rfl | rfl <;> rcases hk with hk | hk
  · exact (append_toString_inj (by decide) (by decide) hk).2
  · exact absurd (append_toString_inj (by decide) (by decide) hk).1 (by decide)
  · exact absurd (append_toString_inj (by decide) (by decide) hk).1 (by decide)
  · exact (append_toString_inj (by decide) (by decide) hk).2

theorem nodup_comparisonLabels (n : Nat) : (comparisonLabels n).Nodup := by
  simp [comparisonLabels]

theorem nodup_comparisonLabelsFrom (n k : Nat) : (comparisonLabelsFrom n k).Nodup := by
  refine List.nodup_flatMap.mpr ⟨fun j _ => nodup_comparisonLabels j, ?_⟩
  refine List.Pairwise.imp ?_ List.nodup_range'
  intro i j hij l hi hj
  exact hij (eq_of_mem_comparisonLabels hi hj)

/-! ## The labels and jumps of blocks -/

variable {fr : Frame} {i : Ir.Instr} {is : Ir.Code}

theorem filterMap_map_loading {f : Instr → Option String} (os : List Operand)
    (hf : ∀ o, f (fr.loading o) = none) : (os.map fr.loading).filterMap f = [] := by
  refine List.filterMap_eq_nil_iff.mpr fun i hi => ?_
  obtain ⟨o, -, rfl⟩ := List.mem_map.mp hi
  exact hf o

/-- A block has the label that the instruction is, or those of a comparison. -/
theorem labels_block (i : Ir.Instr) (n : Nat) : controlFlow.labels (fr.block n i) =
    i.label?.toList ++ comparisonLabelsFrom n i.comparisons := by
  rw [Frame.block, ControlFlow.labels_append, ControlFlow.labels,
    filterMap_map_loading i.operands fun o => by cases o <;> rfl, List.nil_append]
  cases i with
  | assign dest value =>
    cases value with
    | binary op left right => cases op <;> rfl
    | _ => rfl
  | call c =>
    simp only [Frame.finishing]
    split <;> rfl
  | ret value => cases value <;> rfl
  | _ => rfl

/-- The label of a construct is in the block of its own instruction. -/
theorem mem_labels_block (hl : IsLabel l) :
    l ∈ controlFlow.labels (fr.block n i) ↔ i.label? = some l := by
  rw [labels_block, List.mem_append, Option.mem_toList]
  refine or_iff_left fun hmem => ?_
  obtain ⟨j, -, hj⟩ := mem_comparisonLabelsFrom.mp hmem
  exact not_isLabel_of_mem_comparisonLabels hj hl

/-- A block jumps to where the instruction does, or to the labels of a comparison. -/
theorem targets_block (i : Ir.Instr) (n : Nat) : controlFlow.targets (fr.block n i) =
    i.target?.toList ++ comparisonLabelsFrom n i.comparisons := by
  rw [Frame.block, ControlFlow.targets_append, ControlFlow.targets,
    filterMap_map_loading i.operands fun o => by cases o <;> rfl, List.nil_append]
  cases i with
  | assign dest value =>
    cases value with
    | binary op left right => cases op <;> rfl
    | _ => rfl
  | call c =>
    simp only [Frame.finishing]
    split <;> rfl
  | ret value => cases value <;> rfl
  | _ => rfl

/-- How many comparisons there are in a row of instructions. -/
def comparisons (is : Ir.Code) : Nat := (is.map Ir.Instr.comparisons).sum

/-- What each block has of its instruction and of its comparison, a row of blocks has of them. -/
theorem filterMap_blocks {f : Instr → Option String} {g : Ir.Instr → Option String}
    (hblock : ∀ i n, (fr.block n i).filterMap f =
      (g i).toList ++ comparisonLabelsFrom n i.comparisons) (n : Nat) (is : Ir.Code) :
    ((fr.blocks n is).flatten.filterMap f).Perm
      (is.filterMap g ++ comparisonLabelsFrom n (comparisons is)) := by
  induction is generalizing n with
  | nil => exact .refl []
  | cons i is ih =>
    have hfront : (i :: is).filterMap g = (g i).toList ++ is.filterMap g := by
      rw [List.filterMap_cons]
      cases g i <;> rfl
    have hcount : comparisons (i :: is) = i.comparisons + comparisons is := rfl
    rw [Frame.blocks, List.flatten_cons, List.filterMap_append, hblock, hfront, hcount,
      comparisonLabelsFrom_add, List.append_assoc, List.append_assoc]
    refine List.Perm.append_left _ (((ih _).append_left _).trans ?_)
    rw [← List.append_assoc, ← List.append_assoc]
    exact List.perm_append_comm.append_right _

/-- **The labels of emitted code are those of the instructions and of the comparisons.** -/
theorem labels_blocks (n : Nat) (is : Ir.Code) :
    (controlFlow.labels (fr.blocks n is).flatten).Perm
      (Ir.labels is ++ comparisonLabelsFrom n (comparisons is)) :=
  filterMap_blocks labels_block n is

/-- **Emitted code jumps to where the instructions do, and to the labels of the comparisons.** -/
theorem targets_blocks (n : Nat) (is : Ir.Code) :
    (controlFlow.targets (fr.blocks n is).flatten).Perm
      (Ir.targets is ++ comparisonLabelsFrom n (comparisons is)) :=
  filterMap_blocks targets_block n is

/-- The labels of a row of blocks differ if those of the instructions do. -/
theorem nodup_labels_blocks (his : ∀ l ∈ Ir.labels is, IsLabel l) (hnodup : (Ir.labels is).Nodup) :
    (controlFlow.labels (fr.blocks n is).flatten).Nodup := by
  refine (labels_blocks n is).nodup_iff.mpr (List.nodup_append.mpr
    ⟨hnodup, nodup_comparisonLabelsFrom n _, ?_⟩)
  rintro l hl l' hl' rfl
  obtain ⟨j, -, hj⟩ := mem_comparisonLabelsFrom.mp hl'
  exact not_isLabel_of_mem_comparisonLabels hj (his l hl)

/-- The jumps of a row of blocks lead to its labels if those of the instructions do. -/
theorem targets_blocks_subset (his : Ir.targets is ⊆ Ir.labels is) :
    controlFlow.targets (fr.blocks n is).flatten ⊆
      controlFlow.labels (fr.blocks n is).flatten := by
  intro l hl
  refine (labels_blocks n is).mem_iff.mpr ?_
  rcases List.mem_append.mp ((targets_blocks n is).mem_iff.mp hl) with hl | hl
  · exact List.mem_append_left _ (his hl)
  · exact List.mem_append_right _ hl

end Jvm

/-! ## Units -/

/-- **Labels are unique and jumps lead to them.** No label is in a unit twice, and each jump of a
method leads to a label of the same method. In the code that is emitted for a method all labels
differ, those of comparisons among them, and each jump leads to one. -/
theorem labels_of_lower {table : SymbolTable} {root : Node} {unit : Ir.ClassUnit}
    (h : lower table root = .ok unit) :
    (unit.methods.flatMap fun m => Ir.labels m.code).Nodup ∧
    ∀ m ∈ unit.methods, Ir.targets m.code ⊆ Ir.labels m.code ∧
      ∀ classes limit e, Jvm.emitMethod classes limit m = .ok e →
        (Jvm.controlFlow.labels e.code).Nodup ∧
        Jvm.controlFlow.targets e.code ⊆ Jvm.controlFlow.labels e.code ∧
        (Jvm.controlFlow.labels e.code).Perm
          (Ir.labels m.code ++ Jvm.comparisonLabelsFrom 0 (Jvm.comparisons m.code)) := by
  have hunit := nodup_labels_of_lower h
  refine ⟨hunit, fun m hm => ?_⟩
  have hregular := regular_of_lower h hm
  refine ⟨hregular.closed, fun classes limit e he => ?_⟩
  obtain ⟨-, -, rfl⟩ := Jvm.emitMethod_eq_ok.mp he
  have hnodup : (Ir.labels m.code).Nodup := (List.nodup_flatMap.mp hunit).1 m hm
  exact ⟨Jvm.nodup_labels_blocks (fun _ => hregular.isLabel) hnodup,
    Jvm.targets_blocks_subset hregular.closed, Jvm.labels_blocks 0 m.code⟩

/-- Comparisons and jumps inside each other, in two methods. -/
theorem labels_of_lower_nested : ∃ root table unit,
    Accepted "class A{int f(int a){while(a<9&&!(a<5))if(a<7){a=a+1;}else{a=a+2;}return a;}boolean g(boolean b){while(b||b)b=b&&b;return b;}}"
      root table ∧ lower table root = .ok unit ∧
    (unit.methods.flatMap fun m => Ir.labels m.code).length = 14 ∧
    (unit.methods.map fun m => Jvm.comparisons m.code) = [3, 0] ∧
    (∀ m ∈ unit.methods, ∃ e, Jvm.emitMethod (.ofUnit unit) none m = .ok e) ∧
    (unit.methods.flatMap fun m => Ir.labels m.code).Nodup ∧
    ∀ m ∈ unit.methods, Ir.targets m.code ⊆ Ir.labels m.code ∧
      ∀ classes limit e, Jvm.emitMethod classes limit m = .ok e →
        (Jvm.controlFlow.labels e.code).Nodup ∧
        Jvm.controlFlow.targets e.code ⊆ Jvm.controlFlow.labels e.code ∧
        (Jvm.controlFlow.labels e.code).Perm
          (Ir.labels m.code ++ Jvm.comparisonLabelsFrom 0 (Jvm.comparisons m.code)) := by
  obtain ⟨root, table, h, hp⟩ := Accepted.exists_of_any
    "class A{int f(int a){while(a<9&&!(a<5))if(a<7){a=a+1;}else{a=a+2;}return a;}boolean g(boolean b){while(b||b)b=b&&b;return b;}}"
    (fun root table => match lower table root with
      | .ok unit => (unit.methods.flatMap fun m => Ir.labels m.code).length = 14 ∧
          (unit.methods.map fun m => Jvm.comparisons m.code) = [3, 0] ∧
          (unit.methods.all fun m => m.code.all Ir.Instr.hasBlock) = true
      | .error _ => false)
    (by decide +kernel)
  split at hp
  · rename_i unit hlower
    obtain ⟨hlabels, hcomparisons, hblocks⟩ := of_decide_eq_true hp
    refine ⟨root, table, unit, h, hlower, hlabels, hcomparisons, fun m hm => ?_,
      labels_of_lower hlower⟩
    exact ⟨_, Jvm.emitMethod_eq_ok.mpr ⟨nofun, List.all_eq_true.mp hblocks m hm, rfl⟩⟩
  · cases hp

end MiniJava
