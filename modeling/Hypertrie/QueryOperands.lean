import Hypertrie.OperandDependencyGraph

/-! The loops over the operands of a query before its evaluation starts: for the empty
operands, for the scalars and for the positions in the graph. Positions are collected in
bytes, and two of the three loops also count in a byte. -/

namespace Hypertrie

open OperandDependencyGraph

variable {K V : Type}

namespace Evaluation

/-- The positions of the empty operands, as far as the fuel goes. -/
def emptyOps (ops : List (ConstHypertrie K V)) (fuel : Nat) : Option (List Vertex) :=
  collectLoop ops.length (fun i => ops[i]?.any (·.empty)) fuel 0 []

/-- The positions of the scalars. -/
def rank0Ops (ops : List (ConstHypertrie K V)) : List Vertex :=
  ((List.range ops.length).filter (fun i => ops[i]?.any (·.depth = 0))).map (BitVec.ofNat 8)

end Evaluation

namespace OperandDependencyGraph

variable {size : Nat} {collected : Nat → Bool}

/-- A byte is always less than a size from 256 on. -/
theorem collectLoop_eq_none (h : posTypeCount ≤ size) (fuel : Nat) (i : Vertex)
    (positions : List Vertex) : collectLoop size collected fuel i positions = none := by
  induction fuel generalizing i positions with
  | zero => rfl
  | succ fuel ih =>
    have hlt : i.toNat < size := i.isLt.trans_le h
    rw [collectLoop, if_pos hlt, ih]

theorem collectLoop_eq_some (h : size < posTypeCount) {n : Nat} {i : Vertex}
    (hi : i.toNat + n = size) (positions : List Vertex) :
    collectLoop size collected (n + 1) i positions =
      some (positions ++ ((List.range' i.toNat n).filter collected).map (BitVec.ofNat 8)) := by
  induction n generalizing i positions with
  | zero =>
    rw [collectLoop, if_neg (by omega)]
    simp
  | succ n ih =>
    have hnext : (i + 1).toNat = i.toNat + 1 := by
      rw [BitVec.toNat_add]
      exact Nat.mod_eq_of_lt (by rw [posTypeCount] at h; simp; omega)
    have hbyte : BitVec.ofNat 8 i.toNat = i := BitVec.ofNat_toNat _ _
    rw [collectLoop, if_pos (by omega), ih (by omega), hnext, List.range'_succ, List.filter_cons]
    by_cases hc : collected i.toNat = true
    · simp [hc, hbyte]
    · simp [hc]

/-- Positions that fit into a byte are read back. -/
theorem map_toNat_ofNat {l : List Nat} (h : ∀ x ∈ l, x < posTypeCount) :
    (l.map (BitVec.ofNat 8)).map BitVec.toNat = l := by
  rw [List.map_map, List.map_congr_left (g := id), List.map_id]
  intro x hx
  rw [Function.comp_apply, BitVec.toNat_ofNat]
  exact Nat.mod_eq_of_lt (h x hx)

/-- The positions the loop collects. -/
theorem collectLoop_spec (h : size < posTypeCount) : Ensures
    (collectLoop size collected (size + 1) 0 []) (fun positions =>
      positions.map BitVec.toNat = (List.range size).filter collected) := by
  have hzero : (0 : Vertex).toNat + size = size := Nat.zero_add size
  have hrange : List.range' (0 : Vertex).toNat size = List.range size := List.range_eq_range'.symm
  rw [collectLoop_eq_some h hzero, hrange]
  apply Ensures.pure
  apply map_toNat_ofNat
  intro x hx
  exact (List.mem_range.mp (List.mem_filter.mp hx).1).trans h

end OperandDependencyGraph

namespace Evaluation

variable {ops : List (ConstHypertrie K V)}

/-- All loops over the operands of the query end, and what they collect are the positions of the
operands: of the empty ones, of the scalars, of all in the graph of the query and of those in a
sub-graph. -/
structure CollectsAll (ops : List (ConstHypertrie K V)) : Prop where
  emptyOps : ∃ fuel, Ensures (emptyOps ops fuel) (fun positions =>
    positions.map BitVec.toNat = (List.range ops.length).filter (fun i => ops[i]?.any (·.empty)))
  rank0Ops : (rank0Ops ops).map BitVec.toNat =
    (List.range ops.length).filter (fun i => ops[i]?.any (·.depth = 0))
  positions : ∀ edges, ∃ fuel, Ensures
    ((ofSubgraph (.root ops.length edges)).operandsOriginalPositions fuel) (fun positions =>
      positions.map BitVec.toNat = List.range ops.length)
  subPositions : ∀ edges vs, (∀ u ∈ vs, u < ops.length) → Ensures
    ((ofSubgraph (.sub (.root ops.length edges) vs)).operandsOriginalPositions 0) (fun positions =>
      positions.map BitVec.toNat = vs)

/-- The loops end and are right for less than 256 operands. -/
theorem collectsAll_iff (ops : List (ConstHypertrie K V)) :
    CollectsAll ops ↔ ops.length < posTypeCount := by
  constructor
  · intro h
    by_contra hlt
    obtain ⟨fuel, positions, heq, -⟩ := h.emptyOps
    rw [emptyOps, collectLoop_eq_none (Nat.le_of_not_lt hlt)] at heq
    cases heq
  · intro h
    constructor
    case emptyOps => exact ⟨_, collectLoop_spec h⟩
    case rank0Ops =>
      apply map_toNat_ofNat
      intro x hx
      exact (List.mem_range.mp (List.mem_filter.mp hx).1).trans h
    case positions =>
      intro edges
      refine ⟨ops.length + 1, ?_⟩
      rw [operandsOriginalPositions, ofSubgraph, if_neg (not_not_intro rfl)]
      refine (collectLoop_spec h).mono ?_
      intro positions hpositions
      rw [hpositions]
      exact List.filter_true _
    case subPositions =>
      intro edges vs hvs
      rw [operandsOriginalPositions, ofSubgraph, if_neg (not_not_intro rfl)]
      apply Ensures.pure
      have hlocal : vs.map (fun u => BitVec.ofNat 8 ((Subgraph.root ops.length edges).globalToLocal u)) =
          vs.map (BitVec.ofNat 8) := by
        apply List.map_congr_left
        intro u hu
        rw [Subgraph.globalToLocal_root (hvs u hu)]
      rw [hlocal]
      exact map_toNat_ofNat fun u hu => (hvs u hu).trans h

/-- With 256 operands the first loop does not end. -/
theorem not_collectsAll_256 :
    ¬CollectsAll (List.replicate 256 (ConstHypertrie.new 3 : ConstHypertrie Nat Nat)) := by
  intro h
  obtain ⟨fuel, positions, heq, -⟩ := h.emptyOps
  have hsize : posTypeCount ≤
      (List.replicate 256 (ConstHypertrie.new 3 : ConstHypertrie Nat Nat)).length := by
    rw [List.length_replicate]
    exact le_rfl
  rw [emptyOps, collectLoop_eq_none hsize] at heq
  cases heq

end Evaluation

end Hypertrie
