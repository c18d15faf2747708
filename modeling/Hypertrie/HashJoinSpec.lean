import Hypertrie.HashJoin
import Hypertrie.Library.AssocMap

/-! The hash join delivers the natural join of its operands, as long as the
positions of the joined hypertries in the output fit into one byte. -/

namespace Hypertrie

open UnorderedMap

variable {M : Type → Type → Type} [UnorderedMap M] {K V : Type}
variable [DecidableEq K] [DecidableEq V] [Inhabited K]

namespace HashJoin

/-- The joined operands, each with its position in the output. -/
def joined : Nat → List (JoinOperand K V) → List (JoinOperand K V × Nat)
  | _, [] => []
  | out, o :: operands =>
    if o.isJoined then (o, out) :: joined (if o.resultDepth ≠ 0 then out + 1 else out) operands
    else joined (out + 1) operands

/-- The position in the output as it is stored. -/
def posInOut (j : JoinOperand K V × Nat) : Nat :=
  if j.1.resultDepth ≠ 0 then j.2 % posTypeCount else posTypeCount - 1

/-- What the output holds before the first key part. -/
def placeholder (o : JoinOperand K V) : ConstHypertrie K V :=
  if o.isJoined then .new 0 else o.hypertrie

/-- The operands that have a place in the output. -/
def kept (operands : List (JoinOperand K V)) : List (JoinOperand K V) := operands.filter (·.isKept)

section Joined

omit [DecidableEq K] [DecidableEq V] [Inhabited K]

variable {operands : List (JoinOperand K V)} {j : JoinOperand K V × Nat}

theorem map_fst_joined (out : Nat) (operands : List (JoinOperand K V)) :
    (joined out operands).map Prod.fst = operands.filter (·.isJoined) := by
  induction operands generalizing out with
  | nil => rfl
  | cons o operands ih =>
    rw [joined]
    by_cases hj : o.isJoined = true
    · rw [if_pos hj, List.map_cons, ih, List.filter_cons_of_pos hj]
    · rw [if_neg hj, ih, List.filter_cons_of_neg hj]

theorem mem_joined (out : Nat) (h : j ∈ joined out operands) :
    j.1 ∈ operands ∧ j.1.isJoined = true := by
  have hm : j.1 ∈ (joined out operands).map Prod.fst := List.mem_map_of_mem h
  rw [map_fst_joined] at hm
  exact List.mem_filter.mp hm

theorem isKept_iff {o : JoinOperand K V} :
    o.isKept = true ↔ (o.isJoined = true → o.resultDepth ≠ 0) := by
  rw [JoinOperand.isKept]
  cases o.isJoined <;> simp

theorem kept_cons (o : JoinOperand K V) (operands : List (JoinOperand K V)) :
    kept (o :: operands) = if o.isKept then o :: kept operands else kept operands :=
  List.filter_cons

/-- The position of a joined operand in the output is its index among the kept operands. -/
theorem getElem?_kept (out : Nat) (h : j ∈ joined out operands) (hd : j.1.resultDepth ≠ 0) :
    out ≤ j.2 ∧ (kept operands)[j.2 - out]? = some j.1 := by
  induction operands generalizing out with
  | nil => simp [joined] at h
  | cons o operands ih =>
    rw [joined] at h
    by_cases hj : o.isJoined = true
    · rw [if_pos hj] at h
      rcases List.mem_cons.mp h with rfl | h
      · rw [kept_cons, if_pos (isKept_iff.mpr fun _ => hd)]
        simp
      · by_cases h0 : o.resultDepth ≠ 0
        · rw [if_pos h0] at h
          obtain ⟨hle, hget⟩ := ih (out + 1) h
          rw [kept_cons, if_pos (isKept_iff.mpr fun _ => h0),
            show j.2 - out = j.2 - (out + 1) + 1 by omega, List.getElem?_cons_succ]
          exact ⟨by omega, hget⟩
        · rw [if_neg h0] at h
          rw [kept_cons, if_neg fun hk => h0 (isKept_iff.mp hk hj)]
          exact ih out h
    · rw [if_neg hj] at h
      obtain ⟨hle, hget⟩ := ih (out + 1) h
      rw [kept_cons, if_pos (isKept_iff.mpr fun hj' => absurd hj' hj),
        show j.2 - out = j.2 - (out + 1) + 1 by omega, List.getElem?_cons_succ]
      exact ⟨by omega, hget⟩

theorem mem_joined_of_kept (out : Nat) {i : Nat} {o : JoinOperand K V}
    (h : (kept operands)[i]? = some o) (hj : o.isJoined = true) :
    (o, out + i) ∈ joined out operands ∧ o.resultDepth ≠ 0 := by
  have hkept : o.resultDepth ≠ 0 :=
    isKept_iff.mp (List.mem_filter.mp (List.mem_of_getElem? h)).2 hj
  refine ⟨?_, hkept⟩
  induction operands generalizing out i with
  | nil => simp [kept] at h
  | cons o' operands ih =>
    rw [kept_cons] at h
    rw [joined]
    by_cases hk : o'.isKept = true
    · rw [if_pos hk] at h
      cases i with
      | zero =>
        obtain rfl : o' = o := by simpa using h
        rw [if_pos hj]
        exact List.mem_cons_self
      | succ i =>
        have ih := ih (out + 1) h
        rw [show out + (i + 1) = out + 1 + i by omega]
        by_cases hj' : o'.isJoined = true
        · rw [if_pos hj', if_pos (isKept_iff.mp hk hj')]
          exact List.mem_cons_of_mem _ ih
        · rw [if_neg hj']
          exact ih
    · rw [if_neg hk] at h
      have hj' : o'.isJoined = true ∧ ¬ o'.resultDepth ≠ 0 := by
        rw [isKept_iff] at hk
        simpa using hk
      rw [if_pos hj'.1, if_neg hj'.2]
      exact List.mem_cons_of_mem _ (ih out h)

/-- No two kept operands have the same position. -/
theorem nodup_joined (out : Nat) (operands : List (JoinOperand K V)) :
    (((joined out operands).filter (fun j => j.1.resultDepth ≠ 0)).map Prod.snd).Nodup := by
  induction operands generalizing out with
  | nil => exact List.nodup_nil
  | cons o operands ih =>
    rw [joined]
    by_cases hj : o.isJoined = true
    · rw [if_pos hj]
      by_cases h0 : o.resultDepth ≠ 0
      · rw [if_pos h0, List.filter_cons_of_pos (by simpa using h0), List.map_cons, List.nodup_cons]
        refine ⟨fun hm => ?_, ih _⟩
        obtain ⟨j, hj, he⟩ := List.mem_map.mp hm
        obtain ⟨hmem, hd⟩ := List.mem_filter.mp hj
        have := (getElem?_kept (out + 1) hmem (by simpa using hd)).1
        omega
      · rw [if_neg h0, List.filter_cons_of_neg (by simpa using h0)]
        exact ih _
    · rw [if_neg hj]
      exact ih _

end Joined

section Spec

variable {t : HypertrieTrait K V} {F : Nat → Finset (SingleEntry K V) → Prop}
variable {ns : NodeStorage M K V} {operands : List (JoinOperand K V)}
variable {js : List (JoinOperand K V × Nat)} {ops : List (HashDiagonal K V)} {keyPart : K}
variable {second : List (ConstHypertrie K V)}

/-- The diagonals belong to the joined operands. -/
def HaveDiagonals (t : HypertrieTrait K V) (F : Nat → Finset (SingleEntry K V) → Prop)
    (ns : NodeStorage M K V) (js : List (JoinOperand K V × Nat)) (ops : List (HashDiagonal K V)) :
    Prop :=
  List.Forall₂ (fun j d => j.1.HasDiagonal t F ns d) js ops

/-- The diagonals expose the slices at the key part. -/
def AllExposed (t : HypertrieTrait K V) (F : Nat → Finset (SingleEntry K V) → Prop)
    (ns : NodeStorage M K V) (keyPart : K) (js : List (JoinOperand K V × Nat))
    (ops : List (HashDiagonal K V)) : Prop :=
  List.Forall₂ (fun j d => j.1.Exposed t F ns keyPart d) js ops

/-- The joined operands are valid. -/
def AllJoined (t : HypertrieTrait K V) (F : Nat → Finset (SingleEntry K V) → Prop)
    (ns : NodeStorage M K V) (js : List (JoinOperand K V × Nat)) : Prop :=
  ∀ j ∈ js, j.1.Valid t F ns ∧ j.1.isJoined = true

theorem addOperands_spec (hr : Readable t F ns)
    (hv : ∀ o ∈ operands, o.isJoined = true → o.Valid t F ns) (out : Nat) {st : Setup K V}
    (hout : st.outPos = out % posTypeCount) :
    Ensures ((operands.map (fun o => (o.hypertrie, o.positions))).foldlM (addOperand t ns) st)
      (fun st' => st'.posInOut = st.posInOut ++ (joined out operands).map posInOut ∧
        st'.resultDepths = st.resultDepths ++ (joined out operands).map (·.1.resultDepth) ∧
        st'.second = st.second ++ (kept operands).map placeholder ∧
        ∃ ops, st'.ops = st.ops ++ ops ∧ HaveDiagonals t F ns (joined out operands) ops) := by
  induction operands generalizing st out with
  | nil =>
    exact Ensures.pure ⟨by simp [joined], by simp [joined], by simp [kept], [], by simp,
      List.Forall₂.nil⟩
  | cons o operands ih =>
    have hrest : ∀ o' ∈ operands, o'.isJoined = true → o'.Valid t F ns :=
      fun o' hm => hv o' (List.mem_cons_of_mem _ hm)
    have hinc : (st.outPos + 1) % posTypeCount = (out + 1) % posTypeCount := by
      rw [hout, Nat.mod_add_mod]
    rw [List.map_cons, List.foldlM_cons, joined, kept_cons]
    by_cases hj : o.isJoined = true
    · have hlen : ¬ o.positions.length = 0 := (JoinOperand.isJoined_iff.mp hj).ne'
      obtain ⟨d, hnew, hd⟩ := (hv o List.mem_cons_self hj).new_spec hr hj
      have hnew : HashDiagonal.new t ns o.hypertrie
          (.ofPositions o.hypertrie.depth o.positions) = some d := hnew
      rw [addOperand, if_neg hlen, hnew, if_pos hj]
      simp only [Option.bind_eq_bind, Option.bind_some]
      by_cases h0 : o.resultDepth ≠ 0
      · have h0' : o.hypertrie.depth - o.positions.length ≠ 0 := h0
        rw [if_pos h0', if_pos h0, if_pos (isKept_iff.mpr fun _ => h0), Option.bind_some]
        refine (ih hrest (out + 1) hinc).mono ?_
        rintro st' ⟨hpos, hdep, hsec, ops, hops, hover⟩
        refine ⟨?_, ?_, ?_, d :: ops, ?_, List.Forall₂.cons hd hover⟩
        · rw [hpos, List.append_assoc, List.map_cons, posInOut, if_pos h0, hout]
          rfl
        · rw [hdep, List.append_assoc, List.map_cons]
          rfl
        · rw [hsec, List.append_assoc, List.map_cons, placeholder, if_pos hj]
          rfl
        · rw [hops, List.append_assoc]
          rfl
      · have h0' : ¬ o.hypertrie.depth - o.positions.length ≠ 0 := h0
        rw [if_neg h0', if_neg h0, if_neg fun hk => h0 (isKept_iff.mp hk hj), Option.bind_some]
        refine (ih hrest out ?_).mono ?_
        · exact hout
        rintro st' ⟨hpos, hdep, hsec, ops, hops, hover⟩
        refine ⟨?_, ?_, hsec, d :: ops, ?_, List.Forall₂.cons hd hover⟩
        · rw [hpos, List.append_assoc, List.map_cons, posInOut, if_neg h0]
          rfl
        · rw [hdep, List.append_assoc, List.map_cons]
          rfl
        · rw [hops, List.append_assoc]
          rfl
    · have hlen : o.positions.length = 0 := by
        have := mt JoinOperand.isJoined_iff.mpr hj
        omega
      rw [addOperand, if_pos hlen, if_neg hj,
        if_pos (isKept_iff.mpr fun hj' => absurd hj' hj)]
      simp only [Option.bind_eq_bind, Option.bind_some]
      refine (ih hrest (out + 1) hinc).mono ?_
      rintro st' ⟨hpos, hdep, hsec, hops⟩
      refine ⟨hpos, hdep, ?_, hops⟩
      rw [hsec, List.append_assoc, List.map_cons, placeholder, if_neg hj]
      rfl

theorem sizes_spec (hr : Readable t F ns) (hv : AllJoined t F ns js)
    (ho : HaveDiagonals t F ns js ops) :
    Ensures (ops.mapM (HashDiagonal.size ns)) (fun sizes => sizes.length = ops.length) := by
  induction ho with
  | nil => exact Ensures.pure rfl
  | @cons j d js ops hd _ ih =>
    have hj := hv j List.mem_cons_self
    obtain ⟨n, hn, -⟩ := hj.1.size_spec hr hj.2 hd
    obtain ⟨sizes, hs, hlen⟩ := ih fun j' hm => hv j' (List.mem_cons_of_mem _ hm)
    rw [List.mapM_cons, hn]
    simp only [Option.bind_eq_bind, Option.bind_some, hs]
    exact Ensures.pure (by simp [hlen])

/-- All vectors are put into the same order. -/
theorem optimizeOperandOrder_spec (std : StdSort) (hr : Readable t F ns) (hv : AllJoined t F ns js)
    {st : Setup K V} (hpos : st.posInOut = js.map posInOut)
    (hdep : st.resultDepths = js.map (·.1.resultDepth)) (ho : HaveDiagonals t F ns js st.ops) :
    Ensures (optimizeOperandOrder ns std st) (fun st' => st'.second = st.second ∧
      ∃ js' : List (JoinOperand K V × Nat), js'.Perm js ∧ st'.posInOut = js'.map posInOut ∧
        st'.resultDepths = js'.map (·.1.resultDepth) ∧ HaveDiagonals t F ns js' st'.ops) := by
  obtain ⟨sizes, hs, hlen⟩ := sizes_spec hr hv ho
  have hlenj : st.ops.length = js.length := ho.length_eq.symm
  have hperm : (SortPermutation.get std sizes).Perm (List.range js.length) := by
    rw [← hlenj, ← hlen]
    exact std.perm _ _
  have hops := SortPermutation.apply_eq
    (show (SortPermutation.get std sizes).Perm (List.range st.ops.length) by rwa [hlenj])
  have hpos' := SortPermutation.apply_eq
    (show (SortPermutation.get std sizes).Perm (List.range st.posInOut.length) by
      rwa [hpos, List.length_map])
  have hdep' := SortPermutation.apply_eq
    (show (SortPermutation.get std sizes).Perm (List.range st.resultDepths.length) by
      rwa [hdep, List.length_map])
  rw [optimizeOperandOrder, hs]
  simp only [Option.bind_eq_bind, Option.bind_some, hops, hpos', hdep']
  refine Ensures.pure ⟨rfl, _, SortPermutation.perm_filterMap hperm, ?_, ?_, ?_⟩
  · rw [← SortPermutation.map_filterMap, hpos]
  · rw [← SortPermutation.map_filterMap, hdep]
  · exact SortPermutation.forall₂_filterMap ho _

theorem findAll_spec (hr : Readable t F ns) (hv : AllJoined t F ns js)
    (ho : HaveDiagonals t F ns js ops) : Ensures (findAll t ns keyPart ops) (fun res =>
      HaveDiagonals t F ns js res.1 ∧ (res.2 = true ↔ ∀ j ∈ js, keyPart ∈ j.1.diagonalKeys) ∧
      (res.2 = true → AllExposed t F ns keyPart js res.1)) := by
  induction ho with
  | nil => exact Ensures.pure ⟨List.Forall₂.nil, by simp, fun _ => List.Forall₂.nil⟩
  | @cons j d js ops hd hrest ih =>
    have hj := hv j List.mem_cons_self
    rw [findAll]
    refine Ensures.bind (hj.1.find_spec hr hj.2 hd keyPart) ?_
    rintro ⟨d', found⟩ ⟨hd', hiff, hexp⟩
    by_cases hf : found = true
    · simp only [if_pos hf]
      refine Ensures.bind (ih fun j' hm => hv j' (List.mem_cons_of_mem _ hm)) ?_
      rintro ⟨ops', found'⟩ ⟨hops', hiff', hexp'⟩
      refine Ensures.pure ⟨List.Forall₂.cons hd' hops', ?_, fun h => ?_⟩
      · rw [hiff', List.forall_mem_cons]
        exact (and_iff_right (hiff.mp hf)).symm
      · exact List.Forall₂.cons (hexp hf) (hexp' h)
    · simp only [if_neg hf]
      refine Ensures.pure ⟨List.Forall₂.cons hd' hrest, ?_, fun h => Bool.noConfusion h⟩
      refine ⟨fun h => Bool.noConfusion h, fun h => ?_⟩
      exact absurd (hiff.mpr (h j List.mem_cons_self)) hf

/-- Writing changes the positions of the joined operands only; what ends up at a position is the
slice of its operand, unless two operands share it. -/
theorem writeResults_spec (hF : InPlay t F) (hv : AllJoined t F ns js)
    (he : AllExposed t F ns keyPart js ops) :
    Ensures (writeResults t ops (js.map posInOut) (js.map (·.1.resultDepth)) second)
      (fun second' => second'.length = second.length ∧
        (∀ q, (∀ j ∈ js, j.1.resultDepth ≠ 0 → posInOut j ≠ q) → second'[q]? = second[q]?) ∧
        (((js.filter (fun j => j.1.resultDepth ≠ 0)).map posInOut).Nodup → ∀ j ∈ js,
          j.1.resultDepth ≠ 0 → posInOut j < second.length → ∃ h, second'[posInOut j]? = some h ∧
            h.depth = j.1.resultDepth ∧ h.Holds t F ns (j.1.slice keyPart))) := by
  induction he generalizing second with
  | nil => exact Ensures.pure ⟨rfl, fun _ _ => rfl, fun _ j hm => by cases hm⟩
  | @cons j d js ops hd _ ih =>
    have hj := hv j List.mem_cons_self
    have ih := fun second' => @ih second' fun j' hm => hv j' (List.mem_cons_of_mem _ hm)
    rw [List.map_cons, List.map_cons, writeResults]
    by_cases h0 : j.1.resultDepth ≠ 0
    · rw [if_pos h0]
      refine Ensures.bind (hd.currentHypertrie_spec hF hj.1 (Nat.pos_of_ne_zero h0)) ?_
      rintro h ⟨hdep, hholds⟩
      refine (ih (second.set (posInOut j) h)).mono ?_
      rintro second' ⟨hlen, hkeep, hwrite⟩
      rw [List.length_set] at hlen hwrite
      refine ⟨hlen, fun q hq => ?_, fun hnodup j' hm h0' hlt => ?_⟩
      · rw [hkeep q fun j' hm => hq j' (List.mem_cons_of_mem _ hm),
          List.getElem?_set_ne (hq j List.mem_cons_self h0)]
      · rw [List.filter_cons_of_pos (by simpa using h0), List.map_cons, List.nodup_cons] at hnodup
        rcases List.mem_cons.mp hm with rfl | hm
        · refine ⟨h, ?_, hdep, hholds⟩
          rw [hkeep (posInOut j') fun j'' hm'' h0'' he => hnodup.1 (he ▸ List.mem_map_of_mem
            (List.mem_filter.mpr ⟨hm'', by simpa using h0''⟩)), List.getElem?_set_self hlt]
        · exact hwrite hnodup.2 j' hm h0' hlt
    · rw [if_neg h0]
      refine (ih second).mono ?_
      rintro second' ⟨hlen, hkeep, hwrite⟩
      refine ⟨hlen, fun q hq => hkeep q fun j' hm => hq j' (List.mem_cons_of_mem _ hm), ?_⟩
      intro hnodup j' hm h0'
      rw [List.filter_cons_of_neg (by simpa using h0)] at hnodup
      rcases List.mem_cons.mp hm with rfl | hm
      · exact absurd h0' h0
      · exact hwrite hnodup j' hm h0'

/-- The positions of the joined operands in the output fit into one byte. -/
def PositionsFit (operands : List (JoinOperand K V)) : Prop :=
  ∀ (i : Nat) (o : JoinOperand K V), (kept operands)[i]? = some o → o.isJoined = true → i < posTypeCount

/-- The hypertries between two key parts: no write reaches the positions from 256 on, nor those of
operands that are not joined, as long as positions fit. -/
structure OutputOk (operands : List (JoinOperand K V)) (second : List (ConstHypertrie K V)) :
    Prop where
  length : second.length = (kept operands).length
  far : ∀ q, posTypeCount ≤ q → second[q]? = ((kept operands).map placeholder)[q]?
  unjoined : PositionsFit operands → ∀ (q : Nat) (o : JoinOperand K V),
    (kept operands)[q]? = some o → o.isJoined = false → second[q]? = some o.hypertrie

omit [DecidableEq K] [DecidableEq V] [Inhabited K] in
theorem outputOk_placeholder (operands : List (JoinOperand K V)) :
    OutputOk operands ((kept operands).map placeholder) := by
  refine ⟨List.length_map _, fun _ _ => rfl, fun _ q o hq hj => ?_⟩
  rw [List.getElem?_map, hq, Option.map_some, placeholder, if_neg (by simp [hj])]

omit [DecidableEq K] [DecidableEq V] [Inhabited K] in
theorem posInOut_lt {j : JoinOperand K V × Nat} (h0 : j.1.resultDepth ≠ 0) :
    posInOut j < posTypeCount := by
  rw [posInOut, if_pos h0]
  exact Nat.mod_lt _ (by decide)

omit [DecidableEq K] [DecidableEq V] [Inhabited K] in
theorem posInOut_eq (hfit : PositionsFit operands) {j : JoinOperand K V × Nat}
    (hj : j ∈ joined 0 operands) (h0 : j.1.resultDepth ≠ 0) : posInOut j = j.2 := by
  have hget := (getElem?_kept 0 hj h0).2
  exact (if_pos h0).trans (Nat.mod_eq_of_lt (hfit _ _ hget (mem_joined 0 hj).2))

/-- The slices are delivered, and the operands that are not joined. -/
theorem writeResults_output (hF : InPlay t F) (hv : AllJoined t F ns js)
    (hperm : js.Perm (joined 0 operands)) (he : AllExposed t F ns keyPart js ops)
    (ho : OutputOk operands second) :
    Ensures (writeResults t ops (js.map posInOut) (js.map (·.1.resultDepth)) second)
      (fun second' => OutputOk operands second' ∧ (PositionsFit operands →
        List.Forall₂ (JoinOperand.Delivered t F ns keyPart) (kept operands) second')) := by
  refine (writeResults_spec hF hv he).mono ?_
  rintro second' ⟨hlen, hkeep, hwrite⟩
  have hunjoined : PositionsFit operands → ∀ (q : Nat) (o : JoinOperand K V),
      (kept operands)[q]? = some o → o.isJoined = false → second'[q]? = some o.hypertrie := by
    intro hfit q o hq hj
    rw [hkeep q fun j hm h0 he => ?_]
    · exact ho.unjoined hfit q o hq hj
    · have hmem := hperm.subset hm
      have hget := (getElem?_kept 0 hmem h0).2
      rw [posInOut_eq hfit hmem h0] at he
      rw [Nat.sub_zero, he, hq, Option.some.injEq] at hget
      have := (mem_joined 0 hmem).2
      rw [← hget, hj] at this
      cases this
  refine ⟨⟨hlen.trans ho.length, fun q hq => ?_, hunjoined⟩, fun hfit => ?_⟩
  · rw [hkeep q fun j _ h0 he => by have := posInOut_lt h0; omega]
    exact ho.far q hq
  · have hnodup : ((js.filter (fun j => j.1.resultDepth ≠ 0)).map posInOut).Nodup := by
      have hmap : (js.filter (fun j => j.1.resultDepth ≠ 0)).map posInOut =
          (js.filter (fun j => j.1.resultDepth ≠ 0)).map Prod.snd :=
        List.map_congr_left fun j hm => posInOut_eq hfit
          (hperm.subset (List.mem_filter.mp hm).1) (by simpa using (List.mem_filter.mp hm).2)
      rw [hmap]
      exact ((hperm.filter _).map Prod.snd).nodup_iff.mpr (nodup_joined 0 operands)
    apply List.forall₂_iff_get.mpr
    refine ⟨(hlen.trans ho.length).symm, fun q hq hq' => ?_⟩
    have hget : (kept operands)[q]? = some (kept operands)[q] := List.getElem?_eq_getElem hq
    have hget' : second'[q]? = some second'[q] := List.getElem?_eq_getElem hq'
    rw [List.get_eq_getElem, List.get_eq_getElem, JoinOperand.Delivered]
    cases hj : (kept operands)[q].isJoined with
    | true =>
      obtain ⟨hmem, h0⟩ := mem_joined_of_kept 0 hget hj
      rw [Nat.zero_add] at hmem
      have hpos := posInOut_eq hfit hmem h0
      obtain ⟨h, hh, hdep, hholds⟩ := hwrite hnodup _ (hperm.symm.subset hmem) h0
        (by rw [hpos, ho.length]; exact hq)
      rw [hpos, hget', Option.some.injEq] at hh
      rw [if_pos rfl, hh]
      exact ⟨hdep, hholds⟩
    | false =>
      have := hunjoined hfit q _ hget hj
      rw [hget', Option.some.injEq] at this
      rw [if_neg (by simp), this]

/-- What the iteration of a join has to deliver. -/
structure Exact (t : HypertrieTrait K V) (F : Nat → Finset (SingleEntry K V) → Prop)
    (ns : NodeStorage M K V) (operands : List (JoinOperand K V))
    (out : List (K × List (ConstHypertrie K V))) : Prop where
  nodup : (out.map Prod.fst).Nodup
  keys : ∀ k, k ∈ out.map Prod.fst ↔
    ∀ o ∈ operands, o.isJoined = true → k ∈ o.diagonalKeys
  values : ∀ item ∈ out,
    List.Forall₂ (JoinOperand.Delivered t F ns item.1) (kept operands) item.2

/-- The hash join of the operands. -/
def ofOperands (operands : List (JoinOperand K V)) : HashJoin K V :=
  ⟨operands.map (·.hypertrie), operands.map (·.positions)⟩

/-- Whether or not the positions fit, the key parts are right, and no write reaches a position
from 256 on. -/
theorem items_spec (std : StdSort) (hr : Readable t F ns)
    (hv : ∀ o ∈ operands, o.isJoined = true → o.Valid t F ns)
    (hj : ∃ o ∈ operands, o.isJoined = true) :
    Ensures ((ofOperands operands).items t ns std) (fun out => (out.map Prod.fst).Nodup ∧
      (∀ k, k ∈ out.map Prod.fst ↔ ∀ o ∈ operands, o.isJoined = true → k ∈ o.diagonalKeys) ∧
      ∀ item ∈ out, OutputOk operands item.2 ∧ (PositionsFit operands →
        List.Forall₂ (JoinOperand.Delivered t F ns item.1) (kept operands) item.2)) := by
  have hzip : (operands.map (·.hypertrie)).zip (operands.map (·.positions)) =
      operands.map (fun o => (o.hypertrie, o.positions)) := List.zip_map'
  have hall : AllJoined t F ns (joined 0 operands) := by
    intro j hm
    obtain ⟨hmem, hj⟩ := mem_joined 0 hm
    exact ⟨hv _ hmem hj, hj⟩
  rw [items, setup, ofOperands]
  simp only [hzip]
  refine Ensures.bind (addOperands_spec hr hv 0 rfl) ?_
  rintro st ⟨hpos, hdep, hsec, ops, hops, hover⟩
  rw [List.nil_append] at hpos hdep hsec hops
  refine Ensures.bind (optimizeOperandOrder_spec std hr hall hpos hdep (hops ▸ hover)) ?_
  rintro st' ⟨hsec', js, hperm, hpos', hdep', hover'⟩
  have halljs : AllJoined t F ns js := fun j hm => hall j (hperm.subset hm)
  have hkeys : ∀ k, (∀ j ∈ js, k ∈ j.1.diagonalKeys) ↔
      ∀ o ∈ operands, o.isJoined = true → k ∈ o.diagonalKeys := by
    intro k
    constructor
    · intro h o ho hj
      have hm : o ∈ (joined 0 operands).map Prod.fst := by
        rw [map_fst_joined]
        exact List.mem_filter.mpr ⟨ho, hj⟩
      obtain ⟨j, hjm, rfl⟩ := List.mem_map.mp hm
      exact h j (hperm.symm.subset hjm)
    · intro h j hm
      obtain ⟨hmem, hj⟩ := mem_joined 0 (hperm.subset hm)
      exact h j.1 hmem hj
  cases js with
  | nil =>
    obtain ⟨o, ho, hj⟩ := hj
    have hm : o ∈ (joined 0 operands).map Prod.fst := by
      rw [map_fst_joined]
      exact List.mem_filter.mpr ⟨ho, hj⟩
    rw [← hperm.nil_eq] at hm
    cases hm
  | cons j js =>
    obtain ⟨first, others, hfirst, hothers, hst⟩ := List.forall₂_cons_left_iff.mp hover'
    have hj := halljs j List.mem_cons_self
    have hrest : AllJoined t F ns js := fun j' hm => halljs j' (List.mem_cons_of_mem _ hm)
    have hprobe : JoinIterator.ProbeSpec t F ns j.1.hypertrie.depth j.1.entries j.1.mask
        (probe t ns st'.posInOut st'.resultDepths)
        (fun others second => HaveDiagonals t F ns js others ∧ OutputOk operands second)
        (fun k => decide (∀ j ∈ js, k ∈ j.1.diagonalKeys))
        (fun k second => OutputOk operands second ∧ (PositionsFit operands →
          List.Forall₂ (JoinOperand.Delivered t F ns k) (kept operands) second)) := by
      intro smallest others second value keyPart hsm hvalue hholds _ hinv
      rw [probe]
      refine Ensures.bind (findAll_spec hr hrest hinv.1) ?_
      rintro ⟨others', found⟩ ⟨hover, hiff, hexp⟩
      cases found with
      | true =>
        have hex : AllExposed t F ns keyPart (j :: js) (smallest :: others') := by
          refine List.Forall₂.cons ⟨hsm, value, hvalue, ?_⟩ (hexp rfl)
          rw [hj.1.resultDepth_eq]
          exact hholds
        simp only [if_pos, hpos', hdep']
        refine Ensures.bind (writeResults_output hr.inPlay halljs hperm hex hinv.2) ?_
        rintro second' ⟨hout, hdel⟩
        exact Ensures.pure ⟨(decide_eq_true (hiff.mp rfl)).symm, ⟨hover, hout⟩,
          fun _ => ⟨hout, hdel⟩⟩
      | false =>
        have hnot : ¬ ∀ j ∈ js, keyPart ∈ j.1.diagonalKeys := fun h => by
          have := hiff.mpr h
          cases this
        refine Ensures.pure ⟨(decide_eq_false hnot).symm, ⟨hover, hinv.2⟩, fun h => ?_⟩
        exact absurd (of_decide_eq_true h) hnot
    have hout : OutputOk operands st'.second := by
      rw [hsec', hsec]
      exact outputOk_placeholder operands
    have hitems := JoinIterator.items_spec hr hj.1.holds.entrySet
      (JoinOperand.length_mask j.1) (hj.1.count_pos hj.2) hprobe hfirst ⟨hothers, hout⟩
    rw [hst]
    refine hitems.mono ?_
    rintro out ⟨hnodup, hmem, hvalues⟩
    refine ⟨hnodup, fun k => ?_, hvalues⟩
    rw [hmem, ← hkeys, List.forall_mem_cons, decide_eq_true_eq]
    rfl

/-- If positions fit, the join is right. -/
theorem exact_of_fit (std : StdSort) (hr : Readable t F ns)
    (hv : ∀ o ∈ operands, o.isJoined = true → o.Valid t F ns)
    (hj : ∃ o ∈ operands, o.isJoined = true) (hfit : (∃ k, ∀ o ∈ operands, o.isJoined = true →
      k ∈ o.diagonalKeys) → PositionsFit operands) :
    Ensures ((ofOperands operands).items t ns std) (Exact t F ns operands) := by
  refine (items_spec std hr hv hj).mono ?_
  rintro out ⟨hnodup, hkeys, hvalues⟩
  refine ⟨hnodup, hkeys, fun item hm => (hvalues item hm).2 (hfit ⟨item.1, ?_⟩)⟩
  exact (hkeys item.1).mp (List.mem_map_of_mem hm)

/-- A joined operand at a position from 256 on is not delivered. -/
theorem fit_of_exact (std : StdSort) (hr : Readable t F ns)
    (hv : ∀ o ∈ operands, o.isJoined = true → o.Valid t F ns)
    (hj : ∃ o ∈ operands, o.isJoined = true)
    (hex : Ensures ((ofOperands operands).items t ns std) (Exact t F ns operands)) {k : K}
    (hk : ∀ o ∈ operands, o.isJoined = true → k ∈ o.diagonalKeys) : PositionsFit operands := by
  intro i o hi hjo
  by_contra hge
  obtain ⟨out, hout, hexact⟩ := hex
  obtain ⟨out', hout', -, -, hvalues⟩ := items_spec std hr hv hj
  rw [hout, Option.some.injEq] at hout'
  subst hout'
  obtain ⟨item, hm, hitem⟩ := List.mem_map.mp ((hexact.keys k).mpr hk)
  have hfar := (hvalues item hm).1.far i (Nat.le_of_not_lt hge)
  have hdel := hexact.values item hm
  rw [List.getElem?_map, hi, Option.map_some, placeholder, if_pos hjo] at hfar
  obtain ⟨hlt, hget⟩ := List.getElem?_eq_some_iff.mp hi
  obtain ⟨hlt', hget'⟩ := List.getElem?_eq_some_iff.mp hfar
  have := (List.forall₂_iff_get.mp hdel).2 i hlt hlt'
  rw [List.get_eq_getElem, List.get_eq_getElem, hget, hget', JoinOperand.Delivered, if_pos hjo] at this
  exact (mem_joined_of_kept 0 hi hjo).2 this.1.symm

end Spec

end HashJoin

section JoinProperty

open HashJoin

variable {t : HypertrieTrait K V} {ns : NodeStorage M K V} {roots : Multiset (Root K V)}
  {operands : List (JoinOperand K V)}

/-- The hash join is the natural join of its operands unless there is a common key part and a
joined operand whose position in the output does not fit into one byte. -/
theorem hashJoin_exact_iff (std : StdSort) (hc : Canonical t ns roots) (hn : NoCollision t roots)
    (hv : ∀ o ∈ operands, o.Valid t (Live roots) ns) (hj : ∃ o ∈ operands, o.isJoined = true) :
    Ensures ((ofOperands operands).items t ns std) (Exact t (Live roots) ns operands) ↔
      ((∃ k, ∀ o ∈ operands, o.isJoined = true → k ∈ o.diagonalKeys) → PositionsFit operands) := by
  have hr := hc.readable hn
  have hv : ∀ o ∈ operands, o.isJoined = true → o.Valid t (Live roots) ns := fun o ho _ => hv o ho
  constructor
  · rintro hex ⟨k, hk⟩
    exact fit_of_exact std hr hv hj hex hk
  · intro hfit
    exact exact_of_fit std hr hv hj hfit

/-- The hypertrie with the entry [7, 8], joined on the given positions. -/
def sevenEight (positions : List Nat) : JoinOperand (BitVec 64) Bool :=
  ⟨.ofNode defaultBoolTrait 2 (defaultBoolTrait.ident 2 {⟨[7, 8], true⟩}), positions,
    {⟨[7, 8], true⟩}⟩

theorem exists_sevenEight : ∃ ns : NodeStorage AssocMap (BitVec 64) Bool,
    Canonical defaultBoolTrait ns {⟨2, {⟨[7, 8], true⟩}⟩} ∧
    NoCollision defaultBoolTrait {⟨2, {⟨[7, 8], true⟩}⟩} ∧
    ∀ positions : List Nat, positions.Nodup → (∀ pos ∈ positions, pos < 2) →
      (sevenEight positions).Valid defaultBoolTrait (Live {⟨2, {⟨[7, 8], true⟩}⟩}) ns := by
  have hr : RootsOk defaultBoolTrait {⟨2, {⟨[7, 8], true⟩}⟩} := by
    intro r hr
    obtain rfl := Multiset.mem_singleton.mp hr
    exact ⟨by decide, by decide, by decide, by decide⟩
  have hn : NoCollision defaultBoolTrait {⟨2, {⟨[7, 8], true⟩}⟩} :=
    noCollision_of_liveSets (by decide +kernel) (by decide +kernel)
  obtain ⟨ns, hc⟩ := exists_canonical (M := AssocMap) hr hn
  refine ⟨ns, hc, hn, fun positions hnodup hlt => ⟨?_, Finset.singleton_nonempty _, hnodup, hlt⟩⟩
  exact hc.root_holds hn (Multiset.mem_singleton_self _)

/-- A hypertrie of depth 2, joined on the given positions. -/
def pairOperand (keys : Finset (BitVec 64 × BitVec 64)) (positions : List Nat) :
    JoinOperand (BitVec 64) Bool :=
  let entries := keys.image fun key => ⟨[key.1, key.2], true⟩
  ⟨.ofNode defaultBoolTrait 2 (defaultBoolTrait.ident 2 entries), positions, entries⟩

/-- A join of the first position with a diagonal, and with an operand that is not joined. -/
theorem hashJoin_exact_iff_two : ∃ (ns : NodeStorage AssocMap (BitVec 64) Bool)
    (roots : Multiset (Root (BitVec 64) Bool)), Canonical defaultBoolTrait ns roots ∧
    Ensures ((ofOperands [pairOperand {(7, 8), (7, 9), (5, 8)} [0], pairOperand {(7, 7), (8, 8)} [0, 1],
        pairOperand {(7, 8), (7, 9), (5, 8)} []]).items defaultBoolTrait ns .merge)
      (Exact defaultBoolTrait (Live roots) ns [pairOperand {(7, 8), (7, 9), (5, 8)} [0],
        pairOperand {(7, 7), (8, 8)} [0, 1], pairOperand {(7, 8), (7, 9), (5, 8)} []]) := by
  let roots : Multiset (Root (BitVec 64) Bool) :=
    {⟨2, {⟨[7, 8], true⟩, ⟨[7, 9], true⟩, ⟨[5, 8], true⟩}⟩, ⟨2, {⟨[7, 7], true⟩, ⟨[8, 8], true⟩}⟩}
  have hr : RootsOk defaultBoolTrait roots := by
    intro r hr
    rcases Multiset.mem_cons.mp hr with rfl | hr
    · exact ⟨by decide, by decide, by decide, by decide⟩
    · obtain rfl := Multiset.mem_singleton.mp hr
      exact ⟨by decide, by decide, by decide, by decide⟩
  have hn : NoCollision defaultBoolTrait roots :=
    noCollision_of_liveSets (by decide +kernel) (by decide +kernel)
  obtain ⟨ns, hc⟩ := exists_canonical (M := AssocMap) hr hn
  have hmem : (⟨[7, 8], true⟩ : SingleEntry (BitVec 64) Bool) ∈
      (pairOperand {(7, 8), (7, 9), (5, 8)} []).entries := by decide
  have hfirst (positions : List Nat) (hnodup : positions.Nodup) (hlt : ∀ pos ∈ positions, pos < 2) :
      (pairOperand {(7, 8), (7, 9), (5, 8)} positions).Valid defaultBoolTrait (Live roots) ns :=
    ⟨hc.root_holds hn (Multiset.mem_cons_self _ _), ⟨⟨[7, 8], true⟩, hmem⟩, hnodup, hlt⟩
  have hsecond : (pairOperand {(7, 7), (8, 8)} [0, 1]).Valid defaultBoolTrait (Live roots) ns :=
    ⟨hc.root_holds hn (Multiset.mem_cons_of_mem (Multiset.mem_singleton_self _)),
      ⟨⟨[7, 7], true⟩, by decide⟩, by decide, by decide⟩
  refine ⟨ns, roots, hc, (hashJoin_exact_iff .merge hc hn ?_ ⟨_, List.mem_cons_self, rfl⟩).mpr ?_⟩
  · simp only [List.forall_mem_cons]
    exact ⟨hfirst [0] (by decide) (by decide), hsecond, hfirst [] (by decide) (by decide), by simp⟩
  · intro _ i o hi _
    have hlt := (List.getElem?_eq_some_iff.mp hi).1
    have hlen := List.length_filter_le (·.isKept) [pairOperand {(7, 8), (7, 9), (5, 8)} [0],
      pairOperand {(7, 7), (8, 8)} [0, 1], pairOperand {(7, 8), (7, 9), (5, 8)} []]
    have hlt : i < 3 := hlt.trans_le hlen
    exact hlt.trans (by decide)

/-- With 257 operands that are joined on the first of two positions, the last one is not
delivered. -/
theorem hashJoin_257_wrong : ∃ ns : NodeStorage AssocMap (BitVec 64) Bool,
    Canonical defaultBoolTrait ns {⟨2, {⟨[7, 8], true⟩}⟩} ∧
    (∀ o ∈ List.replicate 257 (sevenEight [0]),
      o.Valid defaultBoolTrait (Live {⟨2, {⟨[7, 8], true⟩}⟩}) ns) ∧
    ∀ std, ¬ Ensures ((ofOperands (List.replicate 257 (sevenEight [0]))).items defaultBoolTrait ns std)
      (Exact defaultBoolTrait (Live {⟨2, {⟨[7, 8], true⟩}⟩}) ns
        (List.replicate 257 (sevenEight [0]))) := by
  obtain ⟨ns, hc, hn, hv⟩ := exists_sevenEight
  have hvalid : ∀ o ∈ List.replicate 257 (sevenEight [0]),
      o.Valid defaultBoolTrait (Live {⟨2, {⟨[7, 8], true⟩}⟩}) ns := by
    intro o ho
    rw [List.eq_of_mem_replicate ho]
    exact hv [0] (by decide) (by decide)
  refine ⟨ns, hc, hvalid, fun std hex => ?_⟩
  have hmem : sevenEight [0] ∈ List.replicate 257 (sevenEight [0]) :=
    List.mem_replicate.mpr ⟨by decide, rfl⟩
  have hseven : (7 : BitVec 64) ∈ (sevenEight [0]).diagonalKeys := by decide +kernel
  have hfit := fit_of_exact std (hc.readable hn) (fun o ho _ => hvalid o ho) ⟨_, hmem, rfl⟩ hex (k := 7)
    fun o ho _ => by
      rw [List.eq_of_mem_replicate ho]
      exact hseven
  have hkept : kept (List.replicate 257 (sevenEight [0])) = List.replicate 257 (sevenEight [0]) :=
    List.filter_eq_self.mpr fun o ho => by
      rw [List.eq_of_mem_replicate ho]
      rfl
  have hlast := hfit 256 (sevenEight [0]) (by rw [hkept]; rfl) rfl
  exact absurd hlast (by decide)

end JoinProperty

end Hypertrie
