import Hypertrie.Handle
import Hypertrie.HashJoin

/-! The hash join with optional operands. Its order of operands is decided by
the addresses of their diagonals. -/

namespace Hypertrie

open UnorderedMap

variable {M : Type → Type → Type} [UnorderedMap M] {K V : Type}
variable [DecidableEq K] [DecidableEq V] [Inhabited K]

/-- The value as a hypertrie of depth 0. -/
def HashDiagonal.currentScalarAsTensor (t : HypertrieTrait K V) (ns : NodeStorage M K V)
    (d : HashDiagonal K V) : Option (ConstHypertrie K V) := do
  let value ← d.currentScalar
  let (_, scalarTensor, _) ← (ConstHypertrie.construct 0).set t ns [] value
  some scalarTensor

structure OptionalHashJoin (K V : Type) where
  hypertries : List (ConstHypertrie K V)
  positions : List (List Nat)
  nonOptionalPositions : List (Fin posTypeCount)

namespace OptionalHashJoin

/-- The vectors that the constructor of the iterator fills. -/
structure Setup (K V : Type) where
  posInOut : List Nat
  resultDepths : List Nat
  opsNonOptionalPositions : List Nat
  ops : List (HashDiagonal K V)
  outPos : Nat
  second : List (ConstHypertrie K V)

variable (t : HypertrieTrait K V) (ns : NodeStorage M K V)

def isNonOptional (nonOptionalPositions : List (Fin posTypeCount)) (pos : Nat) : Bool :=
  nonOptionalPositions.any (fun p => p.val == pos)

/-- Every operand has a place in the output. -/
def addOperand (nonOptionalPositions : List (Fin posTypeCount)) (st : Setup K V)
    (operand : (ConstHypertrie K V × List Nat) × Nat) : Option (Setup K V) :=
  let ((hypertrie, joinPoss), pos) := operand
  if joinPoss.length = 0 then
    some { st with second := st.second ++ [hypertrie], outPos := (st.outPos + 1) % posTypeCount }
  else do
    let op ← HashDiagonal.new t ns hypertrie (.ofPositions hypertrie.depth joinPoss)
    let ops := st.ops ++ [op]
    some {
      posInOut := st.posInOut ++ [st.outPos]
      resultDepths := st.resultDepths ++ [hypertrie.depth - joinPoss.length]
      opsNonOptionalPositions :=
        if isNonOptional nonOptionalPositions pos then
          st.opsNonOptionalPositions ++ [(ops.length - 1) % posTypeCount]
        else st.opsNonOptionalPositions
      ops := ops
      outPos := (st.outPos + 1) % posTypeCount
      second := st.second ++ [.new 0] }

def setup (join : OptionalHashJoin K V) : Option (Setup K V) :=
  (join.hypertries.zip join.positions).zipIdx.foldlM (addOperand t ns join.nonOptionalPositions)
    ⟨[], [], [], [], 0, []⟩

/-- The loop that adds the optional operands to the permutation. -/
def completePermutation (opsNonOptionalPositions : List Nat) (n : Nat) (permutation : List Nat) :
    List Nat :=
  (List.range n).foldl (fun permutation pos =>
    if opsNonOptionalPositions.contains pos then permutation
    else permutation ++ [permutation.length]) permutation

/-- The operands are sorted by pointers to their diagonals. These are elements of one vector, so
their order is that of the positions. -/
def optimizeOperandOrder (std : OrderedStdSort) (st : Setup K V) : Option (Setup K V) := do
  let permutation := SortPermutation.get std.toStdSort st.opsNonOptionalPositions
  let opsNonOptionalPositions ← SortPermutation.apply st.opsNonOptionalPositions permutation
  let permutation := completePermutation opsNonOptionalPositions st.ops.length permutation
  let ops ← SortPermutation.apply st.ops permutation
  let posInOut ← SortPermutation.apply st.posInOut permutation
  let resultDepths ← SortPermutation.apply st.resultDepths permutation
  some { st with opsNonOptionalPositions := opsNonOptionalPositions, ops := ops,
                 posInOut := posInOut, resultDepths := resultDepths }

/-- What is delivered for an operand with a slice. -/
def currentResult (op : HashDiagonal K V) (resultDepth : Nat) : Option (ConstHypertrie K V) :=
  if resultDepth ≠ 0 then op.currentHypertrie t else op.currentScalarAsTensor t ns

/-- The loop over all diagonals but the first. -/
def probeOthers (opsNonOptionalPositions : List Nat) (keyPart : K) :
    Nat → List (HashDiagonal K V) → List Nat → List Nat → List (ConstHypertrie K V) →
      Option (Bool × List (HashDiagonal K V) × List (ConstHypertrie K V))
  | opPos, op :: ops, pos :: posInOut, resultDepth :: resultDepths, second => do
    let (op, found) ← op.find t ns keyPart
    if found then do
      let h ← currentResult t ns op resultDepth
      let (found, ops, second) ← probeOthers opsNonOptionalPositions keyPart (opPos + 1) ops
        posInOut resultDepths (second.set pos h)
      some (found, op :: ops, second)
    else if opsNonOptionalPositions.contains opPos then some (false, op :: ops, second)
    else do
      let (found, ops, second) ← probeOthers opsNonOptionalPositions keyPart (opPos + 1) ops
        posInOut resultDepths (second.set pos (.new 0))
      some (found, op :: ops, second)
  | _, [], _, _, second => some (true, [], second)
  | _, _ :: _, _, _, _ => none

/-- The body of the loop in `next`. The iterated diagonal is written last. -/
def probe (opsNonOptionalPositions posInOut resultDepths : List Nat) : JoinProbe K V :=
  fun keyPart smallest others second => do
    let (found, others, second) ← probeOthers t ns opsNonOptionalPositions keyPart 1 others
      posInOut.tail resultDepths.tail second
    if found then do
      let pos ← posInOut.head?
      let resultDepth ← resultDepths.head?
      let h ← currentResult t ns smallest resultDepth
      some (true, others, second.set pos h)
    else some (false, others, second)

/-- The key parts and hypertries that an iteration of the join delivers. -/
def items (std : OrderedStdSort) (join : OptionalHashJoin K V) :
    Option (List (K × List (ConstHypertrie K V))) := do
  let st ← join.setup t ns
  let st ← optimizeOperandOrder std st
  JoinIterator.items t ns (probe t ns st.opsNonOptionalPositions st.posInOut st.resultDepths)
    st.ops st.second

/-- The joined operands, each with its position. -/
def joined (n : Nat) (operands : List (JoinOperand K V)) : List (JoinOperand K V × Nat) :=
  (operands.zipIdx n).filter (·.1.isJoined)

/-- The position in the output as it is stored. -/
def slot (j : JoinOperand K V × Nat) : Nat := j.2 % posTypeCount

/-- The positions of the non-optional ones among the joined operands. -/
def nonOptionalOps (nonOptionalPositions : List (Fin posTypeCount)) (m : Nat)
    (js : List (JoinOperand K V × Nat)) : List Nat :=
  ((js.zipIdx m).filter (fun x => isNonOptional nonOptionalPositions x.1.2)).map Prod.snd

section Joined

omit [DecidableEq K] [DecidableEq V] [Inhabited K]

variable {operands : List (JoinOperand K V)} {j : JoinOperand K V × Nat}
variable {js : List (JoinOperand K V × Nat)} {nonOpt : List (Fin posTypeCount)} {n i : Nat}

theorem joined_cons (n : Nat) (o : JoinOperand K V) (operands : List (JoinOperand K V)) :
    joined n (o :: operands) =
      if o.isJoined then (o, n) :: joined (n + 1) operands else joined (n + 1) operands := by
  rw [joined, List.zipIdx_cons, List.filter_cons]
  rfl

theorem mem_joined :
    j ∈ joined 0 operands ↔ operands[j.2]? = some j.1 ∧ j.1.isJoined = true := by
  rw [joined, List.mem_filter, List.mem_zipIdx_iff_getElem?]

theorem isNonOptional_lt (h : isNonOptional nonOpt i = true) : i < posTypeCount := by
  obtain ⟨p, -, hp⟩ := List.any_eq_true.mp h
  rw [← beq_iff_eq.mp hp]
  exact p.isLt

theorem pairwise_joined (n : Nat) (operands : List (JoinOperand K V)) :
    (joined n operands).Pairwise (fun j j' => j.2 < j'.2) := by
  have hrange : ((operands.zipIdx n).map Prod.snd).Pairwise (· < ·) := by
    rw [List.zipIdx_map_snd]
    exact List.pairwise_lt_range'
  exact (List.pairwise_map.mp hrange).filter _

theorem mem_nonOptionalOps {m : Nat} : i ∈ nonOptionalOps nonOpt m js ↔
    m ≤ i ∧ ∃ j, js[i - m]? = some j ∧ isNonOptional nonOpt j.2 = true := by
  rw [nonOptionalOps, List.mem_map]
  constructor
  · rintro ⟨⟨j, i⟩, hm, rfl⟩
    obtain ⟨hz, hn⟩ := List.mem_filter.mp hm
    obtain ⟨hle, hget⟩ := List.mem_zipIdx_iff_le_and_getElem?_sub.mp hz
    exact ⟨hle, j, hget, hn⟩
  · rintro ⟨hle, j, hget, hn⟩
    exact ⟨(j, i), List.mem_filter.mpr
      ⟨List.mem_zipIdx_iff_le_and_getElem?_sub.mpr ⟨hle, hget⟩, hn⟩, rfl⟩

theorem pairwise_nonOptionalOps (m : Nat) : (nonOptionalOps nonOpt m js).Pairwise (· < ·) := by
  have hrange : ((js.zipIdx m).map Prod.snd).Pairwise (· < ·) := by
    rw [List.zipIdx_map_snd]
    exact List.pairwise_lt_range'
  exact hrange.sublist ((List.filter_sublist).map Prod.snd)

theorem nonOptionalOps_cons (m : Nat) : nonOptionalOps nonOpt m (j :: js) =
    if isNonOptional nonOpt j.2 then m :: nonOptionalOps nonOpt (m + 1) js
    else nonOptionalOps nonOpt (m + 1) js := by
  rw [nonOptionalOps, List.zipIdx_cons, List.filter_cons]
  split <;> rfl

end Joined

section Order

variable {vec : List Nat} {n : Nat}

/-- As many positions are appended as there are optional operands, so all positions are in order. -/
theorem completePermutation_eq (hsub : vec.Pairwise (· < ·)) (hlt : ∀ pos ∈ vec, pos < n) :
    completePermutation vec n (List.range vec.length) = List.range n := by
  have hfold : ∀ m, (List.range m).foldl (fun permutation pos =>
      if vec.contains pos then permutation else permutation ++ [permutation.length])
      (List.range vec.length) =
        List.range (vec.length + ((List.range m).filter (fun pos => !vec.contains pos)).length) := by
    intro m
    induction m with
    | zero => rfl
    | succ m ih =>
      rw [List.range_succ, List.foldl_append, ih, List.filter_append, List.length_append]
      cases hc : vec.contains m with
      | true => simp [List.contains_iff_mem.mp hc]
      | false =>
        have hm : m ∉ vec := fun h => by simp [h] at hc
        simp [hm, ← Nat.add_assoc, List.range_succ]
  have hin : ((List.range n).filter (fun pos => vec.contains pos)).Perm vec := by
    apply (List.perm_ext_iff_of_nodup (List.nodup_range.filter _) (hsub.imp Nat.ne_of_lt)).mpr
    intro pos
    simp only [List.mem_filter, List.mem_range, List.contains_iff_mem]
    exact and_iff_right_of_imp (hlt pos)
  have hcount := List.length_eq_countP_add_countP (fun pos => vec.contains pos) (l := List.range n)
  rw [List.length_range, List.countP_eq_length_filter, hin.length_eq,
    List.countP_eq_length_filter] at hcount
  have hnot : (List.range n).filter (fun pos => !vec.contains pos) =
      (List.range n).filter (fun pos => decide ¬ vec.contains pos = true) := by
    apply List.filter_congr
    intro pos _
    cases vec.contains pos <;> rfl
  rw [completePermutation, hfold, hnot, ← hcount]

omit [DecidableEq K] [DecidableEq V] [Inhabited K] in
/-- The diagonals stay where they are. -/
theorem optimizeOperandOrder_eq (std : OrderedStdSort) {st : Setup K V}
    (hsub : st.opsNonOptionalPositions.Pairwise (· < ·))
    (hlt : ∀ pos ∈ st.opsNonOptionalPositions, pos < st.ops.length)
    (hpos : st.posInOut.length = st.ops.length) (hdep : st.resultDepths.length = st.ops.length) :
    optimizeOperandOrder std st = some st := by
  rw [optimizeOperandOrder, SortPermutation.get_of_pairwise_lt std hsub,
    SortPermutation.apply_range]
  simp only [Option.bind_eq_bind, Option.bind_some, completePermutation_eq hsub hlt,
    SortPermutation.apply_range]
  rw [← hpos, SortPermutation.apply_range, hpos, ← hdep]
  simp only [Option.bind_some, SortPermutation.apply_range]

end Order

end OptionalHashJoin

end Hypertrie
