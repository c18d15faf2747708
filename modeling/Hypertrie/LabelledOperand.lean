import Hypertrie.HashJoinSpec
import Hypertrie.Library.Assignment
import Hypertrie.Subscript

/-! Hypertries whose positions have labels, as constraints on the values of the
labels. Joining on a label fixes its value in the constraint. -/

namespace Hypertrie

open UnorderedMap

variable {M : Type → Type → Type} [UnorderedMap M] {K V : Type}
variable [Inhabited K]

/-- An operand with its labels and the set of entries it holds. -/
structure LabelledOperand (K V : Type) where
  hypertrie : ConstHypertrie K V
  labels : List Label
  entries : Finset (SingleEntry K V)

namespace LabelledOperand

variable (o : LabelledOperand K V)

def rows : Set (List K) := {key | ∃ e ∈ o.entries, e.key = key}

def constraint : Set (Label → K) := Assignment.table o.labels o.rows

def toJoin (label : Label) : JoinOperand K V :=
  ⟨o.hypertrie, Subscript.labelPossInOperand label o.labels, o.entries⟩

/-- The operand for a hypertrie that the join on the label delivers. -/
def afterJoin [DecidableEq K] [DecidableEq V]
    (label : Label) (keyPart : K) (h : ConstHypertrie K V) : LabelledOperand K V :=
  ⟨h, o.labels.filter (· ≠ label), (o.toJoin label).slice keyPart⟩

/-- The operand has other labels as well. -/
def isKept (label : Label) : Bool := o.labels.filter (· ≠ label) ≠ []

structure Valid (t : HypertrieTrait K V) (F : Nat → Finset (SingleEntry K V) → Prop)
    (ns : NodeStorage M K V) (o : LabelledOperand K V) : Prop where
  holds : o.hypertrie.Holds t F ns o.entries
  nonempty : o.entries.Nonempty
  depth : o.hypertrie.depth = o.labels.length
  labels : o.labels ≠ []

/-- The operand holds a set, which may be empty; its node pointer is null then. -/
structure Held (t : HypertrieTrait K V) (F : Nat → Finset (SingleEntry K V) → Prop)
    (ns : NodeStorage M K V) (o : LabelledOperand K V) : Prop where
  holds : o.hypertrie.Holds t F ns o.entries
  depth : o.hypertrie.depth = o.labels.length
  labels : o.labels ≠ []
  null : o.entries = ∅ → o.hypertrie.nodePtr = .null

section Labels

variable [DecidableEq K]
variable {label x : Label} {labels : List Label} {key : List K} {keyPart : K} {σ : Label → K}

theorem length_labelPossInOperand (label : Label) (labels : List Label) :
    (Subscript.labelPossInOperand label labels).length + (labels.filter (· ≠ label)).length =
      labels.length := by
  have hposs : (Subscript.labelPossInOperand label labels).length = labels.countP (· = label) := by
    induction labels with
    | nil => rfl
    | cons l labels ih =>
      rw [Subscript.labelPossInOperand, List.length_cons, List.range_succ_eq_map, List.filter_cons,
        List.filter_map, List.countP_cons, ← ih]
      by_cases hl : l = label
      · simp [hl, Subscript.labelPossInOperand, Function.comp_def]
      · simp [hl, Subscript.labelPossInOperand, Function.comp_def]
  have hsplit := List.length_eq_countP_add_countP (· = label) (l := labels)
  rw [hposs, ← List.countP_eq_length_filter, hsplit]
  simp

theorem mem_labelPossInOperand {pos : Nat} :
    pos ∈ Subscript.labelPossInOperand label labels ↔ labels[pos]? = some label := by
  rw [Subscript.labelPossInOperand, List.mem_filter, List.mem_range, decide_eq_true_eq]
  exact and_iff_right_of_imp fun h => (List.getElem?_eq_some_iff.mp h).1

theorem mask_eq (label : Label) (labels : List Label) :
    RawKeyPositions.ofPositions labels.length (Subscript.labelPossInOperand label labels) =
      labels.map (fun l => decide (l = label)) := by
  apply List.ext_getElem?
  intro pos
  rw [RawKeyPositions.ofPositions, List.getElem?_map, List.getElem?_map]
  by_cases hpos : pos < labels.length
  · rw [List.getElem?_range hpos, List.getElem?_eq_getElem hpos, Option.map_some, Option.map_some,
      Option.some.injEq, Bool.eq_iff_iff, List.contains_iff_mem, mem_labelPossInOperand,
      List.getElem?_eq_getElem hpos, Option.some.injEq, decide_eq_true_eq]
  · have hlen : (List.range labels.length).length ≤ pos := by simpa using hpos
    rw [List.getElem?_eq_none hlen, List.getElem?_eq_none (Nat.le_of_not_lt hpos)]
    rfl

omit [Inhabited K] in
/-- A row without the positions of a label is the row with its value filled in. -/
theorem slice_eq_some_iff (h : key.length = labels.length) :
    RawKeyPositions.slice (labels.map (fun l => decide (l = label))) key keyPart =
      some ((labels.filter (· ≠ label)).map σ) ↔ labels.map (Function.update σ label keyPart) = key := by
  induction labels generalizing key with
  | nil =>
    rw [List.length_eq_zero_iff.mp h]
    exact iff_of_true rfl rfl
  | cons l labels ih =>
    cases key with
    | nil => cases h
    | cons part key =>
      have ih := ih (show key.length = labels.length by simpa using h)
      by_cases hl : l = label
      · rw [List.map_cons, decide_eq_true hl, RawKeyPositions.slice,
          List.filter_cons_of_neg (by simpa using hl), List.map_cons, List.cons.injEq, hl,
          Function.update_self]
        by_cases hp : part = keyPart
        · rw [if_neg (by simpa using hp), ih]
          exact (and_iff_right hp.symm).symm
        · rw [if_pos hp]
          exact iff_of_false (by simp) fun h => hp h.1.symm
      · rw [List.map_cons, decide_eq_false hl, RawKeyPositions.slice,
          List.filter_cons_of_pos (by simpa using hl), List.map_cons, List.map_cons, List.cons.injEq,
          Function.update_of_ne hl, ← ih, Option.map_eq_some_iff]
        constructor
        · rintro ⟨rest, hrest, hcons⟩
          obtain ⟨rfl, rfl⟩ := List.cons.inj hcons
          exact ⟨rfl, hrest⟩
        · rintro ⟨rfl, hrest⟩
          exact ⟨_, hrest, rfl⟩

end Labels

section Join

variable {t : HypertrieTrait K V} {F : Nat → Finset (SingleEntry K V) → Prop}
variable {ns : NodeStorage M K V} {label : Label} {keyPart : K} {h : ConstHypertrie K V}
variable {o : LabelledOperand K V} {σ : Label → K}

theorem Valid.held (hv : o.Valid t F ns) : o.Held t F ns :=
  ⟨hv.holds, hv.depth, hv.labels, fun h => absurd h hv.nonempty.ne_empty⟩

theorem Held.valid (hv : o.Held t F ns) (hne : o.entries ≠ ∅) : o.Valid t F ns :=
  ⟨hv.holds, Finset.nonempty_iff_ne_empty.mpr hne, hv.depth, hv.labels⟩

theorem Held.depth_pos (hv : o.Held t F ns) : 0 < o.hypertrie.depth := by
  rw [hv.depth]
  exact List.length_pos_iff.mpr hv.labels

theorem Held.lt_of_mem (hv : o.Held t F ns) {pos : Nat} (hpos : pos ∈ (o.toJoin label).positions) :
    pos < o.hypertrie.depth := by
  rw [hv.depth]
  exact (List.getElem?_eq_some_iff.mp (mem_labelPossInOperand.mp hpos)).1

theorem Held.count_mask (hv : o.Held t F ns) (label : Label) :
    (o.toJoin label).mask.count = (o.toJoin label).positions.length :=
  JoinOperand.count_ofPositions (List.nodup_range.filter _) fun _ => hv.lt_of_mem

theorem Valid.toJoin (hv : o.Valid t F ns) (label : Label) : (o.toJoin label).Valid t F ns :=
  ⟨hv.holds, hv.nonempty, List.nodup_range.filter _, fun _ => hv.held.lt_of_mem⟩

omit [Inhabited K] in
theorem isJoined_iff : (o.toJoin label).isJoined = true ↔ label ∈ o.labels := by
  rw [JoinOperand.isJoined_iff, List.length_pos_iff_exists_mem, List.mem_iff_getElem?]
  exact exists_congr fun pos => mem_labelPossInOperand

omit [Inhabited K] in
theorem filter_labels_of_notMem (h : label ∉ o.labels) : o.labels.filter (· ≠ label) = o.labels :=
  List.filter_eq_self.mpr fun _ hl => decide_eq_true fun he => h (he ▸ hl)

theorem Held.resultDepth_eq (hv : o.Held t F ns) :
    (o.toJoin label).resultDepth = (o.labels.filter (· ≠ label)).length := by
  have hlen := length_labelPossInOperand label o.labels
  show o.hypertrie.depth - (Subscript.labelPossInOperand label o.labels).length = _
  rw [hv.depth]
  omega

theorem Held.isKept_eq (hv : o.Held t F ns) : (o.toJoin label).isKept = o.isKept label := by
  rw [Bool.eq_iff_iff, HashJoin.isKept_iff, isKept, decide_eq_true_eq, hv.resultDepth_eq,
    isJoined_iff]
  constructor
  · intro h hnil
    by_cases hmem : label ∈ o.labels
    · exact h hmem (List.length_eq_zero_iff.mpr hnil)
    · exact hv.labels (filter_labels_of_notMem hmem ▸ hnil)
  · intro h _ hzero
    exact h (List.length_eq_zero_iff.mp hzero)

variable [DecidableEq K] [DecidableEq V]

/-- Without the label, the slice is the operand itself. -/
theorem Held.slice_of_notMem (hv : o.Held t F ns) (h : label ∉ o.labels) (keyPart : K) :
    (o.toJoin label).slice keyPart = o.entries := by
  have hcount : (o.toJoin label).mask.count = 0 := by
    rw [hv.count_mask label]
    exact Nat.eq_zero_of_not_pos fun hpos => h (isJoined_iff.mp (JoinOperand.isJoined_iff.mpr hpos))
  exact RawKeyPositions.diagonal_of_count_zero hcount o.entries keyPart

/-- What the join delivers for a kept operand. -/
theorem Held.afterJoin (hv : o.Held t F ns) (hk : o.isKept label = true)
    (hj : label ∈ o.labels → ((o.toJoin label).slice keyPart).Nonempty)
    (hd : (o.toJoin label).Delivered t F ns keyPart h) : (o.afterJoin label keyPart h).Held t F ns := by
  have hlabels : o.labels.filter (· ≠ label) ≠ [] := of_decide_eq_true hk
  rw [JoinOperand.Delivered] at hd
  by_cases hmem : label ∈ o.labels
  · rw [if_pos (isJoined_iff.mpr hmem)] at hd
    exact ⟨hd.2, hd.1.trans hv.resultDepth_eq, hlabels, fun h => absurd h (hj hmem).ne_empty⟩
  · rw [if_neg fun hj => hmem (isJoined_iff.mp hj)] at hd
    have hslice := hv.slice_of_notMem hmem keyPart
    subst hd
    refine ⟨?_, ?_, hlabels, fun h => hv.null (hslice.symm.trans h)⟩
    · show o.hypertrie.Holds t F ns ((o.toJoin label).slice keyPart)
      rw [hslice]
      exact hv.holds
    · exact hv.depth.trans (congrArg List.length (filter_labels_of_notMem hmem).symm)

/-- The rows of the slice are the rows with the key part at the label. -/
theorem Valid.mem_rows_afterJoin (hv : o.Valid t F ns) :
    (o.labels.filter (· ≠ label)).map σ ∈ (o.afterJoin label keyPart h).rows ↔
      o.labels.map (Function.update σ label keyPart) ∈ o.rows := by
  have hmask : (o.toJoin label).mask = o.labels.map (fun l => decide (l = label)) := by
    rw [JoinOperand.mask, LabelledOperand.toJoin, hv.depth, mask_eq]
  have hlen (e : SingleEntry K V) (he : e ∈ o.entries) : e.key.length = o.labels.length :=
    (hv.holds.entrySet.length e he).trans hv.depth
  have hslice (e : SingleEntry K V) (he : e ∈ o.entries) (row : List K) :
      RawKeyPositions.slice (o.labels.map (fun l => decide (l = label))) e.key keyPart = some row ↔
        (RawKeyPositions.sliceKey (o.toJoin label).mask keyPart).agrees e.key = true ∧
          (RawKeyPositions.sliceKey (o.toJoin label).mask keyPart).deleteFixed e.key = row := by
    rw [RawKeyPositions.slice_eq (by simpa using hlen e he), hmask]
    by_cases ha : (RawKeyPositions.sliceKey (o.labels.map (fun l => decide (l = label)))
        keyPart).agrees e.key = true
    · rw [if_pos ha, Option.some.injEq]
      exact (and_iff_right ha).symm
    · rw [if_neg ha]
      exact iff_of_false (by simp) fun h => ha h.1
  constructor
  · rintro ⟨e, he, hkey⟩
    obtain ⟨e', he', ha, rfl⟩ := SliceKey.mem_sliceSet.mp he
    have := (hslice e' he' _).mpr ⟨ha, hkey⟩
    exact ⟨e', he', ((slice_eq_some_iff (hlen e' he')).mp this).symm⟩
  · rintro ⟨e, he, hkey⟩
    have := (slice_eq_some_iff (hlen e he)).mpr hkey.symm
    obtain ⟨ha, hrow⟩ := (hslice e he _).mp this
    exact ⟨_, SliceKey.mem_sliceSet.mpr ⟨e, he, ha, rfl⟩, hrow⟩

omit [DecidableEq K] [DecidableEq V] [Inhabited K] in
theorem dependsOn_constraint (o : LabelledOperand K V) :
    DependsOn (· ∈ o.constraint) (o.labels.toFinset : Set Label) :=
  Assignment.dependsOn_table o.labels o.rows

theorem Valid.mem_fix_constraint (hv : o.Valid t F ns) (h : ConstHypertrie K V) :
    σ ∈ Assignment.fix label keyPart o.constraint ↔ σ ∈ (o.afterJoin label keyPart h).constraint :=
  (hv.mem_rows_afterJoin (h := h)).symm

/-- An operand that is dropped asks nothing of the other labels. -/
theorem Valid.fix_constraint_of_dropped (hv : o.Valid t F ns) (hk : ¬ o.isKept label = true)
    (hne : ((o.toJoin label).slice keyPart).Nonempty) :
    Assignment.fix label keyPart o.constraint = Set.univ := by
  have hnil : o.labels.filter (· ≠ label) = [] := by simpa [isKept] using hk
  ext σ
  refine iff_of_true ?_ trivial
  rw [hv.mem_fix_constraint o.hypertrie]
  show ((o.labels.filter (· ≠ label)).map σ) ∈ (o.afterJoin label keyPart o.hypertrie).rows
  obtain ⟨e, he⟩ := hne
  have hlen := ((hv.toJoin label).isEntrySet_slice keyPart).length e he
  rw [hv.held.resultDepth_eq, hnil] at hlen
  rw [hnil]
  exact ⟨e, he, List.length_eq_zero_iff.mp hlen⟩

/-- The value of the label in a solution has a slice. -/
theorem Valid.slice_nonempty (hv : o.Valid t F ns) (hσ : σ ∈ o.constraint) :
    ((o.toJoin label).slice (σ label)).Nonempty := by
  have hrow : o.labels.map (Function.update σ label (σ label)) ∈ o.rows := by
    rw [Function.update_eq_self]
    exact hσ
  obtain ⟨e, he, -⟩ := (hv.mem_rows_afterJoin (h := o.hypertrie)).mpr hrow
  exact ⟨e, he⟩

end Join

/-- The labels of the operands. -/
def labelSet (operands : List (LabelledOperand K V)) : Finset Label :=
  (operands.map (·.labels)).flatten.toFinset

/-- The conjunction of the operands. -/
def constraints : List (LabelledOperand K V) → Set (Label → K)
  | [] => Set.univ
  | o :: operands => o.constraint ∩ constraints operands

/-- The solutions of the operands, without values for other labels. -/
def solutions (operands : List (LabelledOperand K V)) : Set (Label → K) :=
  Assignment.solutions (labelSet operands) (constraints operands)

/-- The operands for the hypertries that the join delivers. -/
def afterJoins [DecidableEq K] [DecidableEq V]
    (label : Label) (keyPart : K) (operands : List (LabelledOperand K V))
    (hs : List (ConstHypertrie K V)) : List (LabelledOperand K V) :=
  List.zipWith (fun o h => o.afterJoin label keyPart h) (operands.filter (·.isKept label)) hs

section Operands

variable {t : HypertrieTrait K V} {F : Nat → Finset (SingleEntry K V) → Prop}
variable {ns : NodeStorage M K V} {label : Label} {keyPart : K} {hs : List (ConstHypertrie K V)}
variable {operands : List (LabelledOperand K V)} {σ : Label → K}

omit [Inhabited K] in
theorem labelSet_cons (o : LabelledOperand K V) (operands : List (LabelledOperand K V)) :
    labelSet (o :: operands) = o.labels.toFinset ∪ labelSet operands := by
  simp [labelSet]

omit [Inhabited K] in
theorem mem_labelSet : label ∈ labelSet operands ↔ ∃ o ∈ operands, label ∈ o.labels := by
  simp [labelSet]

omit [Inhabited K] in
theorem mem_constraints : σ ∈ constraints operands ↔ ∀ o ∈ operands, σ ∈ o.constraint := by
  induction operands with
  | nil => simp [constraints]
  | cons o operands ih => rw [constraints, Set.mem_inter_iff, ih, List.forall_mem_cons]

omit [Inhabited K] in
theorem dependsOn_constraints (operands : List (LabelledOperand K V)) :
    DependsOn (· ∈ constraints operands) (labelSet operands : Set Label) := by
  induction operands with
  | nil => exact fun _ _ _ => rfl
  | cons o operands ih =>
    rw [labelSet_cons]
    exact Assignment.dependsOn_inter o.dependsOn_constraint ih

theorem kept_toJoin (hv : ∀ o ∈ operands, o.Held t F ns) (label : Label) :
    HashJoin.kept (operands.map (·.toJoin label)) =
      (operands.filter (·.isKept label)).map (·.toJoin label) := by
  rw [HashJoin.kept, List.filter_map]
  congr 1
  exact List.filter_congr fun o ho => (hv o ho).isKept_eq

variable [DecidableEq K] [DecidableEq V]

/-- The key parts that all joined operands have. -/
def Common (label : Label) (operands : List (LabelledOperand K V)) (keyPart : K) : Prop :=
  ∀ o ∈ operands, ((o.toJoin label).slice keyPart).Nonempty

theorem common_iff (hv : ∀ o ∈ operands, o.Valid t F ns) : Common label operands keyPart ↔
    ∀ o ∈ operands.map (·.toJoin label), o.isJoined = true → keyPart ∈ o.diagonalKeys := by
  rw [List.forall_mem_map]
  refine forall₂_congr fun o ho => ?_
  by_cases hj : (o.toJoin label).isJoined = true
  · rw [((hv o ho).toJoin label).mem_diagonalKeys hj]
    exact ⟨fun h _ => h, fun h => h hj⟩
  · refine iff_of_true ?_ fun h => absurd h hj
    rw [(hv o ho).held.slice_of_notMem fun hm => hj (isJoined_iff.mpr hm)]
    exact (hv o ho).nonempty

theorem common_of_mem (hv : ∀ o ∈ operands, o.Valid t F ns) (hσ : σ ∈ constraints operands)
    (label : Label) : Common label operands (σ label) :=
  fun o ho => (hv o ho).slice_nonempty (mem_constraints.mp hσ o ho)

omit [DecidableEq K] [DecidableEq V] [Inhabited K] in
theorem filter_cons_of_kept {o : LabelledOperand K V} (hk : o.isKept label = true) :
    (o :: operands).filter (·.isKept label) = o :: operands.filter (·.isKept label) := by
  simp only [List.filter_cons, hk, if_true]

omit [DecidableEq K] [DecidableEq V] [Inhabited K] in
theorem filter_cons_of_dropped {o : LabelledOperand K V} (hk : ¬ o.isKept label = true) :
    (o :: operands).filter (·.isKept label) = operands.filter (·.isKept label) := by
  simp only [List.filter_cons, hk, Bool.false_eq_true, if_false]

omit [Inhabited K] in
theorem afterJoins_cons_of_kept {o : LabelledOperand K V} (hk : o.isKept label = true)
    (h : ConstHypertrie K V) : afterJoins label keyPart (o :: operands) (h :: hs) =
      o.afterJoin label keyPart h :: afterJoins label keyPart operands hs := by
  rw [afterJoins, filter_cons_of_kept hk]
  rfl

omit [Inhabited K] in
theorem afterJoins_cons_of_dropped {o : LabelledOperand K V} (hk : ¬ o.isKept label = true) :
    afterJoins label keyPart (o :: operands) hs = afterJoins label keyPart operands hs := by
  rw [afterJoins, filter_cons_of_dropped hk]
  rfl

omit [Inhabited K] in
theorem exists_of_mem_afterJoins {o' : LabelledOperand K V}
    (h : o' ∈ afterJoins label keyPart operands hs) :
    ∃ o ∈ operands, ∃ h, o' = o.afterJoin label keyPart h := by
  obtain ⟨i, hi, rfl⟩ := List.mem_iff_getElem.mp h
  simp only [afterJoins, List.getElem_zipWith]
  exact ⟨_, (List.mem_filter.mp (List.getElem_mem _)).1, _, rfl⟩

/-- The operands after the join hold what was delivered. -/
theorem afterJoins_held (hv : ∀ o ∈ operands, o.Held t F ns)
    (hj : ∀ o ∈ operands, label ∈ o.labels → ((o.toJoin label).slice keyPart).Nonempty)
    (hd : List.Forall₂ (JoinOperand.Delivered t F ns keyPart)
      (HashJoin.kept (operands.map (·.toJoin label))) hs) :
    (∀ o ∈ afterJoins label keyPart operands hs, o.Held t F ns) ∧
    (afterJoins label keyPart operands hs).map (·.hypertrie) = hs ∧
    (afterJoins label keyPart operands hs).map (·.labels) =
      ((operands.map (·.labels)).map (·.filter (· ≠ label))).filter (· ≠ []) ∧
    ∀ o ∈ operands, o.isKept label = true →
      ∃ h, o.afterJoin label keyPart h ∈ afterJoins label keyPart operands hs := by
  rw [kept_toJoin hv] at hd
  induction operands generalizing hs with
  | nil =>
    cases hd
    exact ⟨by simp [afterJoins], rfl, rfl, by simp⟩
  | cons o operands ih =>
    have hvo := hv o List.mem_cons_self
    have ih {hs} := @ih hs (fun p hp => hv p (List.mem_cons_of_mem _ hp))
      fun p hp => hj p (List.mem_cons_of_mem _ hp)
    by_cases hk : o.isKept label = true
    · rw [filter_cons_of_kept hk, List.map_cons] at hd
      obtain ⟨h, hs, ho, hds, rfl⟩ := List.forall₂_cons_left_iff.mp hd
      obtain ⟨hheld, hhyp, hlab, hkept⟩ := ih hds
      have hne : o.labels.filter (· ≠ label) ≠ [] := of_decide_eq_true hk
      rw [afterJoins_cons_of_kept hk]
      refine ⟨List.forall_mem_cons.mpr ⟨hvo.afterJoin hk (hj o List.mem_cons_self) ho, hheld⟩, ?_, ?_,
        List.forall_mem_cons.mpr ⟨fun _ => ⟨h, List.mem_cons_self⟩, fun p hp hk => ?_⟩⟩
      · rw [List.map_cons, hhyp]
        rfl
      · rw [List.map_cons, hlab, List.map_cons, List.map_cons, List.filter_cons, if_pos (by simpa using hne)]
        rfl
      · obtain ⟨h', hm⟩ := hkept p hp hk
        exact ⟨h', List.mem_cons_of_mem _ hm⟩
    · rw [filter_cons_of_dropped hk] at hd
      obtain ⟨hheld, hhyp, hlab, hkept⟩ := ih hd
      have hnil : o.labels.filter (· ≠ label) = [] := by simpa [isKept] using hk
      rw [afterJoins_cons_of_dropped hk]
      refine ⟨hheld, hhyp, ?_, List.forall_mem_cons.mpr ⟨fun h => absurd h hk, hkept⟩⟩
      rw [hlab, List.map_cons, List.map_cons, hnil, List.filter_cons, if_neg (by simp)]

/-- What the operands after the join ask is what is left of the constraints. -/
theorem constraints_afterJoins (hv : ∀ o ∈ operands, o.Valid t F ns)
    (hc : Common label operands keyPart)
    (hlen : (operands.filter (·.isKept label)).length = hs.length) :
    constraints (afterJoins label keyPart operands hs) =
      Assignment.fix label keyPart (constraints operands) := by
  induction operands generalizing hs with
  | nil => rfl
  | cons o operands ih =>
    have hvo := hv o List.mem_cons_self
    have ih {hs} := @ih hs (fun p hp => hv p (List.mem_cons_of_mem _ hp))
      fun p hp => hc p (List.mem_cons_of_mem _ hp)
    by_cases hk : o.isKept label = true
    · rw [filter_cons_of_kept hk] at hlen
      cases hs with
      | nil => cases hlen
      | cons h hs =>
        rw [afterJoins_cons_of_kept hk, constraints, ih (Nat.succ.inj hlen), constraints,
          Assignment.fix_inter]
        congr 1
        ext σ
        exact (hvo.mem_fix_constraint h).symm
    · rw [filter_cons_of_dropped hk] at hlen
      rw [afterJoins_cons_of_dropped hk, ih hlen, constraints, Assignment.fix_inter,
        hvo.fix_constraint_of_dropped hk (hc o List.mem_cons_self), Set.univ_inter]

/-- The operands after the join are valid, and what they ask is what is left of the constraints. -/
theorem afterJoins_spec (hv : ∀ o ∈ operands, o.Valid t F ns) (hc : Common label operands keyPart)
    (hd : List.Forall₂ (JoinOperand.Delivered t F ns keyPart)
      (HashJoin.kept (operands.map (·.toJoin label))) hs) :
    (∀ o ∈ afterJoins label keyPart operands hs, o.Valid t F ns) ∧
    (afterJoins label keyPart operands hs).map (·.hypertrie) = hs ∧
    (afterJoins label keyPart operands hs).map (·.labels) =
      ((operands.map (·.labels)).map (·.filter (· ≠ label))).filter (· ≠ []) ∧
    constraints (afterJoins label keyPart operands hs) =
      Assignment.fix label keyPart (constraints operands) := by
  have hheld : ∀ o ∈ operands, o.Held t F ns := fun o ho => (hv o ho).held
  obtain ⟨hafter, hhyp, hlab, -⟩ := afterJoins_held hheld (fun o ho _ => hc o ho) hd
  have hlen := hd.length_eq
  rw [kept_toJoin hheld, List.length_map] at hlen
  refine ⟨fun o' ho' => (hafter o' ho').valid ?_, hhyp, hlab, constraints_afterJoins hv hc hlen⟩
  obtain ⟨o, ho, h, rfl⟩ := exists_of_mem_afterJoins ho'
  exact (hc o ho).ne_empty

end Operands

end LabelledOperand

end Hypertrie
