import Hypertrie.JoinLoop
import Hypertrie.PermutationSort

/-! The hash join. Positions of hypertries in its output are kept in one byte
each, so from the 256th output on they wrap around. -/

namespace Hypertrie

open UnorderedMap

variable {M : Type → Type → Type} [UnorderedMap M] {K V : Type}
variable [DecidableEq K] [DecidableEq V] [Inhabited K]

/-- The number of values of `pos_type`, an unsigned integer of 8 bits. -/
def posTypeCount : Nat := 256

structure HashJoin (K V : Type) where
  hypertries : List (ConstHypertrie K V)
  positions : List (List Nat)

namespace HashJoin

/-- The vectors that the constructor of the iterator fills. -/
structure Setup (K V : Type) where
  posInOut : List Nat
  resultDepths : List Nat
  ops : List (HashDiagonal K V)
  outPos : Nat
  second : List (ConstHypertrie K V)

variable (t : HypertrieTrait K V) (ns : NodeStorage M K V)

/-- A joined operand gets a diagonal, and a place in the output unless all its positions are
joined. -/
def addOperand (st : Setup K V) (operand : ConstHypertrie K V × List Nat) : Option (Setup K V) :=
  if operand.2.length = 0 then
    some { st with second := st.second ++ [operand.1], outPos := (st.outPos + 1) % posTypeCount }
  else do
    let op ← HashDiagonal.new t ns operand.1 (.ofPositions operand.1.depth operand.2)
    let resultDepth := operand.1.depth - operand.2.length
    if resultDepth ≠ 0 then
      some ⟨st.posInOut ++ [st.outPos], st.resultDepths ++ [resultDepth], st.ops ++ [op],
        (st.outPos + 1) % posTypeCount, st.second ++ [.new 0]⟩
    else
      some ⟨st.posInOut ++ [posTypeCount - 1], st.resultDepths ++ [resultDepth], st.ops ++ [op],
        st.outPos, st.second⟩

def setup (join : HashJoin K V) : Option (Setup K V) :=
  (join.hypertries.zip join.positions).foldlM (addOperand t ns) ⟨[], [], [], 0, []⟩

/-- Operands with small diagonals come first. -/
def optimizeOperandOrder (std : StdSort) (st : Setup K V) : Option (Setup K V) := do
  let sizes ← st.ops.mapM (HashDiagonal.size ns)
  let permutation := SortPermutation.get std sizes
  let ops ← SortPermutation.apply st.ops permutation
  let posInOut ← SortPermutation.apply st.posInOut permutation
  let resultDepths ← SortPermutation.apply st.resultDepths permutation
  some { st with ops := ops, posInOut := posInOut, resultDepths := resultDepths }

/-- Looks for the key part in the diagonals until one does not have it. -/
def findAll (keyPart : K) : List (HashDiagonal K V) → Option (List (HashDiagonal K V) × Bool)
  | [] => some ([], true)
  | op :: ops => do
    let (op, found) ← op.find t ns keyPart
    if found then do
      let (ops, found) ← findAll keyPart ops
      some (op :: ops, found)
    else some (op :: ops, false)

/-- The loop over the operands that writes the hypertries. -/
def writeResults : List (HashDiagonal K V) → List Nat → List Nat → List (ConstHypertrie K V) →
    Option (List (ConstHypertrie K V))
  | op :: ops, pos :: posInOut, resultDepth :: resultDepths, second =>
    if resultDepth ≠ 0 then do
      let h ← op.currentHypertrie t
      writeResults ops posInOut resultDepths (second.set pos h)
    else writeResults ops posInOut resultDepths second
  | [], _, _, second => some second
  | _ :: _, _, _, _ => none

/-- The body of the loop in `next`. -/
def probe (posInOut resultDepths : List Nat) : JoinProbe K V := fun keyPart smallest others second => do
  let (others, found) ← findAll t ns keyPart others
  if found then do
    let second ← writeResults t (smallest :: others) posInOut resultDepths second
    some (true, others, second)
  else some (false, others, second)

/-- The key parts and hypertries that an iteration of the join delivers. -/
def items (std : StdSort) (join : HashJoin K V) :
    Option (List (K × List (ConstHypertrie K V))) := do
  let st ← join.setup t ns
  let st ← optimizeOperandOrder ns std st
  JoinIterator.items t ns (probe t ns st.posInOut st.resultDepths) st.ops st.second

end HashJoin

/-- An operand of a join with the set of entries it holds. -/
structure JoinOperand (K V : Type) where
  hypertrie : ConstHypertrie K V
  positions : List Nat
  entries : Finset (SingleEntry K V)

namespace JoinOperand

variable (o : JoinOperand K V)

def isJoined : Bool := !o.positions.isEmpty

def mask : RawKeyPositions := .ofPositions o.hypertrie.depth o.positions

def resultDepth : Nat := o.hypertrie.depth - o.positions.length

/-- The key parts with a slice that is not empty. -/
def diagonalKeys : Finset K := o.mask.diagonalKeys o.entries

/-- The slice with all join positions fixed to the key part. -/
def slice (keyPart : K) : Finset (SingleEntry K V) := o.mask.diagonal o.entries keyPart

/-- An operand is dropped if all its positions are joined. -/
def isKept : Bool := !(o.isJoined && o.resultDepth == 0)

/-- The operand holds a non-empty set and is joined on distinct positions of it. -/
structure Valid (t : HypertrieTrait K V) (F : Nat → Finset (SingleEntry K V) → Prop)
    (ns : NodeStorage M K V) (o : JoinOperand K V) : Prop where
  holds : o.hypertrie.Holds t F ns o.entries
  nonempty : o.entries.Nonempty
  nodup : o.positions.Nodup
  lt : ∀ pos ∈ o.positions, pos < o.hypertrie.depth

/-- What is delivered for a kept operand: its slice if it is joined, else the operand itself. -/
def Delivered (t : HypertrieTrait K V) (F : Nat → Finset (SingleEntry K V) → Prop)
    (ns : NodeStorage M K V) (keyPart : K) (o : JoinOperand K V) (h : ConstHypertrie K V) : Prop :=
  if o.isJoined then h.depth = o.resultDepth ∧ h.Holds t F ns (o.slice keyPart) else h = o.hypertrie

section Mask

theorem count_ofPositions {depth : Nat} {positions : List Nat} (hn : positions.Nodup)
    (hlt : ∀ pos ∈ positions, pos < depth) :
    (RawKeyPositions.ofPositions depth positions).count = positions.length := by
  have hperm : ((List.range depth).filter (fun pos => positions.contains pos)).Perm positions := by
    apply (List.perm_ext_iff_of_nodup (List.nodup_range.filter _) hn).mpr
    intro pos
    simp only [List.mem_filter, List.mem_range, List.contains_iff_mem]
    exact and_iff_right_of_imp (hlt pos)
  rw [RawKeyPositions.count, RawKeyPositions.ofPositions, List.countP_map, List.countP_eq_length_filter]
  exact hperm.length_eq

variable {t : HypertrieTrait K V} {F : Nat → Finset (SingleEntry K V) → Prop}
variable {ns : NodeStorage M K V} {o : JoinOperand K V}

omit [DecidableEq K] [DecidableEq V] [Inhabited K] in
@[simp]
theorem length_mask (o : JoinOperand K V) : o.mask.length = o.hypertrie.depth := by
  simp [mask, RawKeyPositions.ofPositions]

omit [DecidableEq K] [DecidableEq V] [Inhabited K] in
theorem isJoined_iff : o.isJoined = true ↔ 0 < o.positions.length := by
  rw [isJoined, Bool.not_eq_true', List.isEmpty_eq_false_iff, List.length_pos_iff]

omit [DecidableEq K] [DecidableEq V] in
theorem Valid.count_mask (h : o.Valid t F ns) : o.mask.count = o.positions.length :=
  count_ofPositions h.nodup h.lt

omit [DecidableEq K] [DecidableEq V] in
theorem Valid.depth_pos (h : o.Valid t F ns) (hj : o.isJoined = true) : 0 < o.hypertrie.depth := by
  obtain ⟨pos, hpos⟩ := List.exists_mem_of_length_pos (isJoined_iff.mp hj)
  exact (Nat.zero_le pos).trans_lt (h.lt pos hpos)

omit [DecidableEq K] [DecidableEq V] in
theorem Valid.count_pos (h : o.Valid t F ns) (hj : o.isJoined = true) : 0 < o.mask.count :=
  h.count_mask ▸ isJoined_iff.mp hj

omit [DecidableEq K] [DecidableEq V] in
theorem Valid.resultDepth_eq (h : o.Valid t F ns) :
    o.resultDepth = o.hypertrie.depth - o.mask.count := by
  rw [resultDepth, h.count_mask]

theorem Valid.mem_diagonalKeys (h : o.Valid t F ns) (hj : o.isJoined = true) {keyPart : K} :
    keyPart ∈ o.diagonalKeys ↔ (o.slice keyPart).Nonempty :=
  RawKeyPositions.mem_diagonalKeys h.holds.entrySet (length_mask o) (h.count_pos hj)

theorem Valid.isEntrySet_slice (h : o.Valid t F ns) (keyPart : K) :
    IsEntrySet t o.resultDepth (o.slice keyPart) := by
  rw [h.resultDepth_eq]
  exact RawKeyPositions.isEntrySet_diagonal h.holds.entrySet (length_mask o) keyPart

end Mask

/-- The diagonal is over the operand. -/
def HasDiagonal (t : HypertrieTrait K V) (F : Nat → Finset (SingleEntry K V) → Prop)
    (ns : NodeStorage M K V) (o : JoinOperand K V) (d : HashDiagonal K V) : Prop :=
  d.Over t F ns o.hypertrie.depth o.entries o.mask

/-- The diagonal exposes the slice of the operand at the key part. -/
def Exposed (t : HypertrieTrait K V) (F : Nat → Finset (SingleEntry K V) → Prop)
    (ns : NodeStorage M K V) (keyPart : K) (o : JoinOperand K V) (d : HashDiagonal K V) : Prop :=
  o.HasDiagonal t F ns d ∧ ∃ value, d.currentValue = some value ∧
    value.DiagonalHolds t F ns o.resultDepth (o.slice keyPart)

section Spec

variable {t : HypertrieTrait K V} {F : Nat → Finset (SingleEntry K V) → Prop}
variable {ns : NodeStorage M K V} {o : JoinOperand K V} {d : HashDiagonal K V} {keyPart : K}

theorem Valid.new_spec (hr : Readable t F ns) (h : o.Valid t F ns) (hj : o.isJoined = true) :
    Ensures (HashDiagonal.new t ns o.hypertrie o.mask) (o.HasDiagonal t F ns) :=
  HashDiagonal.new_spec hr h.holds h.nonempty (h.depth_pos hj) (length_mask o) (h.count_pos hj)

theorem Valid.find_spec (hr : Readable t F ns) (h : o.Valid t F ns) (hj : o.isJoined = true)
    (hd : o.HasDiagonal t F ns d) (keyPart : K) : Ensures (d.find t ns keyPart) (fun res =>
      o.HasDiagonal t F ns res.1 ∧ (res.2 = true ↔ keyPart ∈ o.diagonalKeys) ∧
      (res.2 = true → o.Exposed t F ns keyPart res.1)) := by
  obtain ⟨⟨d', found⟩, hf, hiff, hvalue⟩ := HashDiagonal.Over.find_spec hr hd h.holds.entrySet
    (h.depth_pos hj) (length_mask o) (h.count_pos hj) keyPart
  have hover : o.HasDiagonal t F ns d' := HashDiagonal.Over.reached hd (.find .new hf)
  refine ⟨(d', found), hf, hover, hiff, fun hfound => ⟨hover, ?_⟩⟩
  rw [h.resultDepth_eq]
  exact hvalue hfound

theorem Exposed.currentHypertrie_spec (hF : InPlay t F) (h : o.Valid t F ns)
    (hd : 0 < o.resultDepth) (he : o.Exposed t F ns keyPart d) : Ensures (d.currentHypertrie t)
      (fun res => res.depth = o.resultDepth ∧ res.Holds t F ns (o.slice keyPart)) := by
  obtain ⟨hover, value, hv, hholds⟩ := he
  rw [h.resultDepth_eq] at hd hholds ⊢
  exact HashDiagonal.Over.currentHypertrie_spec hF hover h.holds.entrySet (length_mask o) hv hd hholds

theorem Valid.size_spec (hr : Readable t F ns) (h : o.Valid t F ns) (hj : o.isJoined = true)
    (hd : o.HasDiagonal t F ns d) : Ensures (d.size ns) (fun n => o.diagonalKeys.card ≤ n) :=
  HashDiagonal.Over.size_spec hr hd h.holds.entrySet (length_mask o) (h.count_pos hj)

end Spec

end JoinOperand

end Hypertrie
