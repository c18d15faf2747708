import Hypertrie.HashJoin
import Hypertrie.UndirectedGraph

/-! Subscripts in Einstein summation. What the constructor of a subscript stores
is computed on demand here, from the labels of the operands and of the result. -/

namespace Hypertrie

/-- `char`. -/
abbrev Label := BitVec 8

/-- The labels of a `RawSubscript`. -/
structure Subscript where
  operands : List (List Label)
  result : List Label
  deriving DecidableEq

inductive SubscriptType where
  | join
  | cartesian
  | resolve
  | count
  | entryGenerator
  deriving DecidableEq

/-- A component of a Cartesian product and the positions of its operands and result labels in the
subscript it comes from. -/
structure CartesianSubSubscript where
  subscript : Subscript
  originalOperandPoss : List Nat
  originalResultPoss : List Nat

namespace Subscript

def operandsLabelSet (sc : Subscript) : Finset Label := sc.operands.flatten.toFinset

def resultLabelSet (sc : Subscript) : Finset Label := sc.result.toFinset

/-- Positions are below the depth of a hypertrie and fit into `LabelPos`. -/
def labelPossInOperand (label : Label) (operand : List Label) : List Nat :=
  (List.range operand.length).filter (fun pos => operand[pos]? = some label)

def labelPossInOperands (sc : Subscript) (label : Label) : List (List Nat) :=
  sc.operands.map (labelPossInOperand label)

def isResultLabel (sc : Subscript) (label : Label) : Bool := label ∈ sc.resultLabelSet

def labelPosInResult (sc : Subscript) (label : Label) : Nat := sc.result.idxOf label

/-- Operands without labels are dropped. -/
def removeLabel (sc : Subscript) (label : Label) : Subscript :=
  ⟨(sc.operands.map (·.filter (· ≠ label))).filter (· ≠ []), sc.result⟩

def usedResultPoss (sc : Subscript) : List Nat :=
  (List.range sc.result.length).filter (fun pos => sc.result[pos]?.any (· ∈ sc.operandsLabelSet))

def allResultDone (sc : Subscript) : Bool := ∀ label ∈ sc.resultLabelSet, label ∉ sc.operandsLabelSet

def dependencyGraph (sc : Subscript) : UndirectedGraph Label :=
  sc.operands.foldl UndirectedGraph.addCompleteGraph .empty

def connectedComponents (sets : SetBegin Label) (sc : Subscript) : Option (List (Finset Label)) :=
  sc.dependencyGraph.getConnectedComponents sets

/-- `calcState`. -/
def type (sets : SetBegin Label) (sc : Subscript) : Option SubscriptType :=
  match sc.operands with
  | [] => some .entryGenerator
  | [operand] =>
    if operand.length = sc.operandsLabelSet.card then
      if ∀ label ∈ sc.operandsLabelSet, label ∈ sc.resultLabelSet then some .resolve
      else if ∀ label ∈ sc.operandsLabelSet, label ∉ sc.resultLabelSet then some .count
      else some .join
    else some .join
  | _ => do
    let connectedComponents ← sc.connectedComponents sets
    some (if connectedComponents.length > 1 then .cartesian else .join)

/-- Positions of operands and of result labels are kept in one byte each. -/
def extractCartesianSubSubscript (sc : Subscript) (labelSubset : Finset Label) :
    CartesianSubSubscript :=
  let operands := sc.operands.map (·.filter (· ∈ labelSubset))
  { subscript := ⟨operands.filter (· ≠ []), sc.result.filter (· ∈ labelSubset)⟩
    originalOperandPoss := ((List.range operands.length).filter
      (fun pos => operands[pos]?.any (· ≠ []))).map (· % posTypeCount)
    originalResultPoss := ((List.range sc.result.length).filter
      (fun pos => sc.result[pos]?.any (· ∈ labelSubset))).map (· % posTypeCount) }

def cartesianSubSubscripts (sets : SetBegin Label) (sc : Subscript) :
    Option (List CartesianSubSubscript) :=
  (sc.connectedComponents sets).map (·.map sc.extractCartesianSubSubscript)

/-- There are as many labels as positions. -/
theorem length_le_of_nodup {labels : List Label} (h : labels.Nodup) :
    labels.length ≤ posTypeCount := by
  have hsub : labels.map BitVec.toNat ⊆ List.range posTypeCount := by
    intro i hi
    obtain ⟨label, -, rfl⟩ := List.mem_map.mp hi
    exact List.mem_range.mpr label.isLt
  have hle := (List.subperm_of_subset (h.map BitVec.toNat_injective) hsub).length_le
  simpa only [List.length_map, List.length_range] using hle

section Labels

variable {sc : Subscript} {label : Label}

theorem mem_operandsLabelSet : label ∈ sc.operandsLabelSet ↔ ∃ operand ∈ sc.operands, label ∈ operand := by
  simp [operandsLabelSet]

theorem operandsLabelSet_removeLabel (sc : Subscript) (label : Label) :
    (sc.removeLabel label).operandsLabelSet = sc.operandsLabelSet.erase label := by
  ext l
  rw [mem_operandsLabelSet, Finset.mem_erase, mem_operandsLabelSet]
  constructor
  · rintro ⟨_, hop, hl⟩
    obtain ⟨operand, hmem, rfl⟩ := List.mem_map.mp (List.mem_filter.mp hop).1
    obtain ⟨hl, hne⟩ := List.mem_filter.mp hl
    exact ⟨by simpa using hne, operand, hmem, hl⟩
  · rintro ⟨hne, operand, hop, hl⟩
    have hmem : l ∈ operand.filter (· ≠ label) := List.mem_filter.mpr ⟨hl, by simpa using hne⟩
    refine ⟨_, List.mem_filter.mpr ⟨List.mem_map.mpr ⟨operand, hop, rfl⟩, ?_⟩, hmem⟩
    exact decide_eq_true (List.ne_nil_of_mem hmem)

theorem allResultDone_iff : sc.allResultDone = true ↔ ∀ l ∈ sc.result, l ∉ sc.operandsLabelSet := by
  simp [allResultDone, resultLabelSet]

theorem dependencyGraph_spec (sc : Subscript) : sc.dependencyGraph.Wf ∧
    (∀ a b, b ∈ sc.dependencyGraph.edges a ↔ ∃ operand ∈ sc.operands, a ∈ operand ∧ b ∈ operand) ∧
    sc.dependencyGraph.nodes = sc.operandsLabelSet := by
  have hfold (operands : List (List Label)) {g : UndirectedGraph Label} (hg : g.Wf) :
      (operands.foldl UndirectedGraph.addCompleteGraph g).Wf ∧
      (∀ a b, b ∈ (operands.foldl UndirectedGraph.addCompleteGraph g).edges a ↔
        b ∈ g.edges a ∨ ∃ operand ∈ operands, a ∈ operand ∧ b ∈ operand) ∧
      (∀ a, a ∈ (operands.foldl UndirectedGraph.addCompleteGraph g).nodes ↔
        a ∈ g.nodes ∨ ∃ operand ∈ operands, a ∈ operand) := by
    induction operands generalizing g with
    | nil => simp [hg]
    | cons operand operands ih =>
      obtain ⟨hwf, hedge, hnode⟩ := UndirectedGraph.addCompleteGraph_spec hg operand
      obtain ⟨hwf', hedge', hnode'⟩ := ih hwf
      refine ⟨hwf', fun a b => ?_, fun a => ?_⟩
      · rw [List.foldl_cons, hedge', hedge, List.exists_mem_cons_iff, or_assoc]
      · rw [List.foldl_cons, hnode', hnode, List.exists_mem_cons_iff, or_assoc]
  obtain ⟨hwf, hedge, hnode⟩ := hfold sc.operands UndirectedGraph.wf_empty
  refine ⟨hwf, fun a b => ?_, ?_⟩
  · rw [dependencyGraph, hedge]
    exact or_iff_right (Finset.notMem_empty b)
  · ext a
    rw [dependencyGraph, hnode, mem_operandsLabelSet]
    exact or_iff_right (Finset.notMem_empty a)

/-- The sets partition the labels, and each operand has its labels in one of them. -/
structure Splits (sc : Subscript) (cs : List (Finset Label)) : Prop where
  nonempty : ∀ c ∈ cs, c.Nonempty
  disjoint : cs.Pairwise Disjoint
  mem : ∀ l, l ∈ sc.operandsLabelSet ↔ ∃ c ∈ cs, l ∈ c
  operand : ∀ c ∈ cs, ∀ operand ∈ sc.operands, ∀ a ∈ operand, a ∈ c → ∀ b ∈ operand, b ∈ c

theorem connectedComponents_spec (sets : SetBegin Label) (sc : Subscript) :
    Ensures (sc.connectedComponents sets) sc.Splits := by
  obtain ⟨hwf, hedge, hnodes⟩ := sc.dependencyGraph_spec
  refine (UndirectedGraph.getConnectedComponents_spec sets hwf).mono ?_
  rintro cs ⟨hne, hdisj, hmem, hclosed⟩
  rw [hnodes] at hmem
  refine ⟨hne, hdisj, hmem, fun c hc operand hop a ha hac b hb => ?_⟩
  exact hclosed c hc a hac ((hedge a b).mpr ⟨operand, hop, ha, hb⟩)

end Labels

end Subscript

end Hypertrie
