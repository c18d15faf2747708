import Hypertrie.EinsumSpec

/-! Einsum over operands of which some are empty. Nothing is yielded unless a
sub-problem that is evaluated joins on a label of an empty operand, or counts the
entries of one with a bool value. -/

namespace Hypertrie

open UnorderedMap Weighted LabelledOperand Assignment Odometer

variable {M : Type → Type → Type} [UnorderedMap M] {K V : Type}
variable [DecidableEq K] [Inhabited K]

/-- A sub-problem whose operands may be empty. -/
structure HeldProblem (t : HypertrieTrait K V) (F : Nat → Finset (SingleEntry K V) → Prop)
    (ns : NodeStorage M K V) (operands : List (LabelledOperand K V)) (result : List Label) : Prop where
  held : ∀ o ∈ operands, o.Held t F ns
  length : operands.length ≤ posTypeCount
  nodup : result.Nodup

def HasEmpty (operands : List (LabelledOperand K V)) : Prop := ∃ o ∈ operands, o.entries = ∅

/-- The label that a join of the operands is on. -/
def joinLabel (c : EinsumChoices K V) (operands : List (LabelledOperand K V)) (result : List Label) :
    Label :=
  c.minCardLabel (operands.map (·.hypertrie)) (subscriptOf operands result)

/-- The key parts and hypertries of the join on this label. -/
def joinItems [DecidableEq V] (t : HypertrieTrait K V) (ns : NodeStorage M K V) (c : EinsumChoices K V)
    (operands : List (LabelledOperand K V)) (result : List Label) :
    Option (List (K × List (ConstHypertrie K V))) :=
  HashJoin.items t ns c.std ⟨operands.map (·.hypertrie),
    (subscriptOf operands result).labelPossInOperands (joinLabel c operands result)⟩

/-- The evaluation looks into an empty operand. -/
inductive ReachesEmpty [DecidableEq V]
    (t : HypertrieTrait K V) (ns : NodeStorage M K V) (c : EinsumChoices K V)
    (boolValued : Bool) : List (LabelledOperand K V) → List Label → Prop where
  /-- A join is on a label of an empty operand. -/
  | join {operands : List (LabelledOperand K V)} {result : List Label} {o : LabelledOperand K V}
      (htype : (subscriptOf operands result).type c.sets = some .join) (ho : o ∈ operands)
      (hlabel : joinLabel c operands result ∈ o.labels) (hempty : o.entries = ∅) :
      ReachesEmpty t ns c boolValued operands result
  /-- The sub-problem for a key part does. -/
  | item {operands : List (LabelledOperand K V)} {result : List Label}
      {items : List (K × List (ConstHypertrie K V))} {item : K × List (ConstHypertrie K V)}
      (htype : (subscriptOf operands result).type c.sets = some .join)
      (hitems : joinItems t ns c operands result = some items) (hm : item ∈ items)
      (h : ReachesEmpty t ns c boolValued
        (afterJoins (joinLabel c operands result) item.1 operands item.2) result) :
      ReachesEmpty t ns c boolValued operands result
  /-- A bool value stands for an empty operand. -/
  | count {o : LabelledOperand K V} {result : List Label} (hbool : boolValued = true)
      (htype : (subscriptOf [o] result).type c.sets = some .count) (hempty : o.entries = ∅) :
      ReachesEmpty t ns c boolValued [o] result
  /-- A component does, and the components before it have solutions. -/
  | component {operands : List (LabelledOperand K V)} {result : List Label}
      {cs pre post : List (Finset Label)} {labels : Finset Label}
      (htype : (subscriptOf operands result).type c.sets = some .cartesian)
      (hcs : (subscriptOf operands result).connectedComponents c.sets = some cs)
      (horder : CartesianOperator.evaluationOrder c operands result cs = pre ++ labels :: post)
      (hpre : ∀ d ∈ pre, (solutions (operandsOf operands d)).Nonempty)
      (h : ReachesEmpty t ns c boolValued (operandsOf operands labels) (result.filter (· ∈ labels))) :
      ReachesEmpty t ns c boolValued operands result

section Cardinality

variable [DecidableEq V]

/-- `get_cards`. The node of an empty hypertrie is not looked into. -/
def ConstHypertrie.getCards (t : HypertrieTrait K V) (ns : NodeStorage M K V) (h : ConstHypertrie K V)
    (positions : List Nat) : Option (List Nat) :=
  if positions.isEmpty then some []
  else if h.empty then some (List.replicate positions.length 0)
  else do
    let size ← h.size t ns
    if h.depth = 1 then some [size]
    else if size = 1 then some (List.replicate positions.length 1)
    else do
      let node ← UnorderedMap.find (ns.fns h.depth) h.nodeIdentifier
      some (positions.map fun pos => UnorderedMap.size (node.edges pos))

namespace CardinalityEstimation

/-- What `calcCard` asks the operands with the label for. -/
def labelCards (t : HypertrieTrait K V) (ns : NodeStorage M K V) (sc : Subscript)
    (operands : List (ConstHypertrie K V)) (label : Label) : Option (List (List Nat)) :=
  ((operands.zip (sc.labelPossInOperands label)).filter (·.2 ≠ [])).mapM
    fun operand => operand.1.getCards t ns operand.2

/-- What `estimate` asks all operands for. -/
def operandSizes (t : HypertrieTrait K V) (ns : NodeStorage M K V)
    (operands : List (ConstHypertrie K V)) : Option (List Nat) :=
  operands.mapM (·.size t ns)

end CardinalityEstimation

variable {t : HypertrieTrait K V} {F : Nat → Finset (SingleEntry K V) → Prop}
variable {ns : NodeStorage M K V} {operands : List (LabelledOperand K V)} {result : List Label}

theorem ConstHypertrie.getCards_spec (hr : Readable t F ns) {h : ConstHypertrie K V}
    {S : Finset (SingleEntry K V)} (hh : h.Holds t F ns S) (hd : 0 < h.depth) {positions : List Nat}
    (hne : positions ≠ []) :
    Ensures (h.getCards t ns positions) (fun cards => cards ≠ [] ∧ (S = ∅ → ∀ card ∈ cards, card = 0)) := by
  rw [getCards, if_neg (by simpa using hne)]
  by_cases hempty : h.empty = true
  · rw [if_pos hempty]
    exact Ensures.pure ⟨by simpa using hne, fun _ _ => List.eq_of_mem_replicate⟩
  have hS : S ≠ ∅ := fun hS => hempty (hh.empty_iff.mpr hS)
  rw [if_neg hempty]
  refine Ensures.bind (ConstHypertrie.size_spec hr hh hd) ?_
  rintro _ rfl
  by_cases h1 : h.depth = 1
  · rw [if_pos h1]
    exact Ensures.pure ⟨List.cons_ne_nil _ _, fun h => absurd h hS⟩
  by_cases hone : S.card = 1
  · rw [if_neg h1, if_pos hone]
    exact Ensures.pure ⟨by simpa using hne, fun h => absurd h hS⟩
  have hpos := Finset.card_pos.mpr (Finset.nonempty_iff_ne_empty.mpr hS)
  obtain ⟨-, node, hnode, -⟩ := ConstHypertrie.exists_fullNode hr hh hd (by omega)
  rw [if_neg h1, if_neg hone, hnode]
  exact Ensures.pure ⟨by simpa using hne, fun h => absurd h hS⟩

omit [DecidableEq K] [DecidableEq V] [Inhabited K] in
theorem zip_labelPossInOperands (operands : List (LabelledOperand K V)) (result : List Label)
    (label : Label) : (operands.map (·.hypertrie)).zip
      ((subscriptOf operands result).labelPossInOperands label) =
        operands.map fun o => (o.hypertrie, (o.toJoin label).positions) := by
  simp [Subscript.labelPossInOperands, subscriptOf, LabelledOperand.toJoin, List.zip_map']

omit [DecidableEq K] [DecidableEq V] [Inhabited K] in
theorem positions_ne_nil {o : LabelledOperand K V} {label : Label} :
    (o.toJoin label).positions ≠ [] ↔ label ∈ o.labels := by
  rw [← isJoined_iff, JoinOperand.isJoined_iff, List.length_pos_iff]

/-- The estimation gets an answer from all operands, the empty ones included. -/
theorem CardinalityEstimation.labelCards_spec (hr : Readable t F ns)
    (hp : HeldProblem t F ns operands result) (label : Label) :
    Ensures (labelCards t ns (subscriptOf operands result) (operands.map (·.hypertrie)) label)
      (List.Forall₂ (fun o cards => cards ≠ [] ∧ (o.entries = ∅ → ∀ card ∈ cards, card = 0))
        (operands.filter (label ∈ ·.labels))) := by
  have hfilter : (operands.filter fun o => decide ((o.toJoin label).positions ≠ [])) =
      operands.filter (label ∈ ·.labels) :=
    List.filter_congr fun o _ => decide_eq_decide.mpr positions_ne_nil
  rw [labelCards, zip_labelPossInOperands, List.filter_map, List.mapM_map]
  refine (Ensures.mapM fun o ho => ?_).mono fun cards hcards => hfilter ▸ hcards
  obtain ⟨ho, hlabel⟩ := List.mem_filter.mp ho
  have hheld := hp.held o ho
  exact ConstHypertrie.getCards_spec hr hheld.holds hheld.depth_pos (of_decide_eq_true hlabel)

theorem CardinalityEstimation.operandSizes_spec (hr : Readable t F ns)
    (hp : HeldProblem t F ns operands result) :
    operandSizes t ns (operands.map (·.hypertrie)) = some (operands.map (·.entries.card)) := by
  rw [operandSizes, List.mapM_map]
  obtain ⟨sizes, hsizes, h⟩ := Ensures.mapM (l := operands) (R := fun o size => size = o.entries.card)
    fun o ho => ConstHypertrie.size_spec hr (hp.held o ho).holds (hp.held o ho).depth_pos
  refine hsizes.trans (congrArg some ?_)
  exact List.forall₂_eq_eq_eq ▸ List.forall₂_map_right_iff.mpr (h.flip.imp fun _ _ h => h)

end Cardinality

section Entries

omit [DecidableEq K] [Inhabited K]

variable {sub : SubOperator K V} {sc : Subscript} {hs : List (ConstHypertrie K V)} {e : Entry K}

theorem SubOperator.entries_nil
    (hgen : sc.allResultDone = false → Ensures (sub.generator sc hs e) (·.1 = []))
    (hsingle : sc.allResultDone = true → Ensures (sub.singleResult sc hs e) (·.value = 0)) :
    Ensures (sub.entries sc hs e) (·.1 = []) := by
  rw [SubOperator.entries]
  by_cases hd : sc.allResultDone = true
  · rw [if_pos hd]
    exact Ensures.map ((hsingle hd).mono fun e' hv => if_neg fun hne => hne hv)
  · rw [if_neg hd]
    exact hgen (by simpa using hd)

theorem SubOperator.singleResult_zero (hd : sc.allResultDone = true)
    (h : Ensures (sub.entries sc hs e) (·.1 = [])) : Ensures (sub.singleResult sc hs e) (·.value = 0) := by
  obtain ⟨res, hres, hnil⟩ := h
  rw [SubOperator.entries, if_pos hd] at hres
  obtain ⟨e', he', rfl⟩ := Option.map_eq_some_iff.mp hres
  refine ⟨e', he', ?_⟩
  by_contra hv
  simp [hv] at hnil

theorem SubOperator.generator_nil (hd : sc.allResultDone = false)
    (h : Ensures (sub.entries sc hs e) (·.1 = [])) : Ensures (sub.generator sc hs e) (·.1 = []) := by
  rwa [SubOperator.entries, if_neg (by simp [hd])] at h

theorem SubOperator.entries_eq_none (hgen : sub.generator sc hs e = none)
    (hsingle : sub.singleResult sc hs e = none) : sub.entries sc hs e = none := by
  rw [SubOperator.entries, hgen, hsingle]
  exact ite_self _

theorem SubOperator.singleResult_eq_none (hd : sc.allResultDone = true)
    (h : sub.entries sc hs e = none) : sub.singleResult sc hs e = none := by
  rwa [SubOperator.entries, if_pos hd, Option.map_eq_none_iff] at h

theorem SubOperator.generator_eq_none (hd : sc.allResultDone = false)
    (h : sub.entries sc hs e = none) : sub.generator sc hs e = none := by
  rwa [SubOperator.entries, if_neg (by simp [hd])] at h

theorem allResultDone_removeLabel (hd : sc.allResultDone = true) (label : Label) :
    (sc.removeLabel label).allResultDone = true := by
  refine Subscript.allResultDone_iff.mpr fun l hl hm => Subscript.allResultDone_iff.mp hd l hl ?_
  rw [Subscript.operandsLabelSet_removeLabel] at hm
  exact Finset.mem_of_mem_erase hm

end Entries

namespace JoinOperator

omit [DecidableEq K] [Inhabited K]

variable {sub : SubOperator K V} {sc : Subscript} {label : Label} {e : Entry K} {boolValued : Bool}
variable {items : List (K × List (ConstHypertrie K V))} {item : K × List (ConstHypertrie K V)}

theorem generatorLoop_nil
    (h : ∀ item ∈ items, ∀ e, Ensures (sub.entries (sc.removeLabel label) item.2 e) (·.1 = [])) :
    Ensures (generatorLoop sub sc label items e) (·.1 = []) := by
  induction items generalizing e with
  | nil => exact Ensures.pure rfl
  | cons item items ih =>
    rw [generatorLoop]
    refine Ensures.bind (h item List.mem_cons_self _) fun res hres => ?_
    refine Ensures.bind (ih fun item hm => h item (List.mem_cons_of_mem _ hm)) fun rest hrest => ?_
    exact Ensures.pure (List.append_eq_nil_iff.mpr ⟨hres, hrest⟩)

theorem singleLoop_eq {value : Nat}
    (h : ∀ item ∈ items, ∀ e, Ensures (sub.singleResult sc item.2 e) (·.value = 0)) :
    Ensures (singleLoop boolValued sub sc items value e) (·.value = value) := by
  induction items generalizing e with
  | nil => exact Ensures.pure rfl
  | cons item items ih =>
    rw [singleLoop]
    refine Ensures.bind (h item List.mem_cons_self e) fun e' hvalue => ?_
    rw [if_neg fun hne => hne hvalue]
    exact ih fun item hm => h item (List.mem_cons_of_mem _ hm)

theorem generatorLoop_eq_none (hm : item ∈ items)
    (h : ∀ e, sub.entries (sc.removeLabel label) item.2 e = none) :
    generatorLoop sub sc label items e = none := by
  induction items generalizing e with
  | nil => cases hm
  | cons first items ih =>
    rw [generatorLoop]
    rcases List.mem_cons.mp hm with rfl | hm
    · simp [h]
    · simp [ih hm]

theorem singleLoop_eq_none {value : Nat} (hm : item ∈ items)
    (h : ∀ e, sub.singleResult sc item.2 e = none) :
    singleLoop false sub sc items value e = none := by
  induction items generalizing value e with
  | nil => cases hm
  | cons first items ih =>
    rw [singleLoop]
    rcases List.mem_cons.mp hm with rfl | hm
    · simp [h]
    · simp [ih hm]

end JoinOperator

section Join

variable {t : HypertrieTrait K V} {F : Nat → Finset (SingleEntry K V) → Prop}
variable {ns : NodeStorage M K V} {c : EinsumChoices K V} {boolValued : Bool} {n : Nat}
variable {operands : List (LabelledOperand K V)} {result : List Label} {e : Entry K}
variable {o : LabelledOperand K V} {item : K × List (ConstHypertrie K V)}
variable {items : List (K × List (ConstHypertrie K V))}

omit [DecidableEq K] in
theorem HeldProblem.problem (hp : HeldProblem t F ns operands result) (hne : ¬ HasEmpty operands) :
    Problem t F ns operands result :=
  ⟨fun o ho => (hp.held o ho).valid fun hempty => hne ⟨o, ho, hempty⟩, hp.length, hp.nodup⟩

omit [DecidableEq K] in
theorem HeldProblem.labelSet_nonempty (hp : HeldProblem t F ns operands result)
    (hne : operands ≠ []) : (labelSet operands).Nonempty := by
  obtain ⟨o, ho⟩ := List.exists_mem_of_ne_nil _ hne
  obtain ⟨l, hl⟩ := List.exists_mem_of_ne_nil _ (hp.held o ho).labels
  exact ⟨l, mem_labelSet.mpr ⟨o, ho, hl⟩⟩

omit [DecidableEq K] in
theorem joinLabel_mem (c : EinsumChoices K V) (hp : HeldProblem t F ns operands result)
    (hne : operands ≠ []) : joinLabel c operands result ∈ labelSet operands :=
  c.minCardLabel_mem _ (subscriptOf operands result) (hp.labelSet_nonempty hne)

omit [DecidableEq K] in
/-- There is no entry in an empty operand to satisfy it. -/
theorem solutions_of_hasEmpty (h : HasEmpty operands) : solutions operands = ∅ := by
  obtain ⟨o, ho, hempty⟩ := h
  refine Set.eq_empty_of_forall_notMem fun σ hσ => ?_
  obtain ⟨e, he, -⟩ := mem_constraints.mp hσ.1 o ho
  rw [hempty] at he
  cases he

variable [DecidableEq V]

/-- The sub-problem for a key part, when no empty operand is joined. -/
theorem joinItems_spec (hr : Readable t F ns) (c : EinsumChoices K V)
    (hp : HeldProblem t F ns operands result) (hops : operands ≠ [])
    (hne : ∀ o ∈ operands, joinLabel c operands result ∈ o.labels → o.entries ≠ ∅) :
    Ensures (joinItems t ns c operands result) fun items => ∀ item ∈ items,
      HeldProblem t F ns (afterJoins (joinLabel c operands result) item.1 operands item.2) result ∧
      subscriptOf (afterJoins (joinLabel c operands result) item.1 operands item.2) result =
        (subscriptOf operands result).removeLabel (joinLabel c operands result) ∧
      (afterJoins (joinLabel c operands result) item.1 operands item.2).map (·.hypertrie) = item.2 ∧
      (labelSet (afterJoins (joinLabel c operands result) item.1 operands item.2)).card + 1 =
        (labelSet operands).card ∧
      (HasEmpty operands →
        HasEmpty (afterJoins (joinLabel c operands result) item.1 operands item.2)) := by
  have hlabel := joinLabel_mem c hp hops
  refine (items_exact c.std hr hp.held hne hp.length hlabel).mono fun items hexact item hm => ?_
  have hslice : ∀ o ∈ operands, joinLabel c operands result ∈ o.labels →
      ((o.toJoin (joinLabel c operands result)).slice item.1).Nonempty := by
    intro o ho hl
    have hvalid := ((hp.held o ho).valid (hne o ho hl)).toJoin (joinLabel c operands result)
    have hj := isJoined_iff.mpr hl
    exact (hvalid.mem_diagonalKeys hj).mp
      ((hexact.keys item.1).mp (List.mem_map_of_mem hm) _ (List.mem_map_of_mem ho) hj)
  obtain ⟨hheld, hhyp, hlab, hkept⟩ := afterJoins_held hp.held hslice (hexact.values item hm)
  refine ⟨⟨hheld, (length_afterJoins_le ..).trans hp.length, hp.nodup⟩, subscriptOf_afterJoins hlab,
    hhyp, ?_, ?_⟩
  · rw [labelSet_afterJoins hlab]
    exact Finset.card_erase_add_one hlabel
  · rintro ⟨o, ho, hempty⟩
    have hnot : joinLabel c operands result ∉ o.labels := fun hl => hne o ho hl hempty
    have hk : o.isKept (joinLabel c operands result) = true := by
      rw [isKept, filter_labels_of_notMem hnot]
      exact decide_eq_true (hp.held o ho).labels
    obtain ⟨h, hm⟩ := hkept o ho hk
    exact ⟨_, hm, ((hp.held o ho).slice_of_notMem hnot item.1).trans hempty⟩

/-- No operand may be empty for the join on one of its labels. -/
theorem HashDiagonal.new_empty (hr : Readable t F ns) (hh : o.Held t F ns) (hempty : o.entries = ∅)
    (hplace : ∀ d, t.inPlaceNode d = false) (mask : RawKeyPositions) :
    HashDiagonal.new t ns o.hypertrie mask = none := by
  have hdepth : 0 < o.hypertrie.depth := hh.depth_pos
  have hident : o.hypertrie.nodeIdentifier = t.ident o.hypertrie.depth ∅ := by
    rw [hh.holds.ident hdepth, hempty]
  have hsize : o.hypertrie.size t ns = some 0 := by
    rw [ConstHypertrie.size, if_pos (hh.holds.empty_iff.mpr hempty)]
  have hentry : o.hypertrie.singleEntry ns = none := by
    rw [ConstHypertrie.singleEntry, hh.null hempty, hident]
    split
    · rfl
    · refine Option.map_eq_none_iff.mpr (Option.eq_none_iff_forall_ne_some.mpr fun node hfind => ?_)
      obtain ⟨-, -, hid⟩ := (hr.nodes o.hypertrie.depth).sen _ node hfind
      have := ident_singleton_ne_seed (t := t) (d := o.hypertrie.depth) node.entry
      rw [← hid] at this
      simp [RawIdentifier.isEmpty] at this
  rw [HashDiagonal.new, hsize]
  simp [SingleEntryDiagonal.new, hplace, hentry]

theorem joinItems_eq_none (hr : Readable t F ns) (hh : o.Held t F ns)
    (hplace : ∀ d, t.inPlaceNode d = false) (ho : o ∈ operands)
    (hlabel : joinLabel c operands result ∈ o.labels) (hempty : o.entries = ∅) :
    joinItems t ns c operands result = none := by
  have hzip := zip_labelPossInOperands operands result (joinLabel c operands result)
  have hlen : ¬ (o.toJoin (joinLabel c operands result)).positions.length = 0 :=
    (JoinOperand.isJoined_iff.mp (isJoined_iff.mpr hlabel)).ne'
  have hadd (st : HashJoin.Setup K V) : HashJoin.addOperand t ns st
      (o.hypertrie, (o.toJoin (joinLabel c operands result)).positions) = none := by
    rw [HashJoin.addOperand, if_neg hlen, HashDiagonal.new_empty hr hh hempty hplace]
    rfl
  rw [joinItems, HashJoin.items, HashJoin.setup, hzip,
    foldlM_eq_none (List.mem_map_of_mem ho) hadd]
  rfl

/-- The members of the join operator. -/
def JoinOperator.operator (t : HypertrieTrait K V) (ns : NodeStorage M K V) (c : EinsumChoices K V)
    (boolValued : Bool) (sub : SubOperator K V) : SubOperator K V :=
  ⟨generator t ns c sub, singleResult t ns c boolValued sub⟩

theorem JoinOperator.generator_eq (sub : SubOperator K V) :
    (operator t ns c boolValued sub).generator (subscriptOf operands result)
        (operands.map (·.hypertrie)) e =
      (joinItems t ns c operands result).bind fun items =>
        generatorLoop sub (subscriptOf operands result) (joinLabel c operands result) items
          (clearUsedEntryPoss e (subscriptOf operands result)) := rfl

theorem JoinOperator.singleResult_eq (sub : SubOperator K V) :
    (operator t ns c boolValued sub).singleResult (subscriptOf operands result)
        (operands.map (·.hypertrie)) e =
      (joinItems t ns c operands result).bind fun items =>
        singleLoop boolValued sub
          ((subscriptOf operands result).removeLabel (joinLabel c operands result)) items 0
          (clearUsedEntryPoss e (subscriptOf operands result)) := rfl

/-- What a join of operands of which some are empty yields. -/
theorem JoinOperator.entries_nil {sub : SubOperator K V} (hr : Readable t F ns) (c : EinsumChoices K V)
    (hp : HeldProblem t F ns operands result) (hempty : HasEmpty operands)
    (hne : ∀ o ∈ operands, joinLabel c operands result ∈ o.labels → o.entries ≠ ∅)
    (hsub : ∀ items, joinItems t ns c operands result = some items → ∀ item ∈ items,
      let operands' := afterJoins (joinLabel c operands result) item.1 operands item.2
      HeldProblem t F ns operands' result → (labelSet operands').card + 1 = (labelSet operands).card →
      HasEmpty operands' → ∀ e, Ensures (sub.entries (subscriptOf operands' result)
        (operands'.map (·.hypertrie)) e) (·.1 = [])) :
    Ensures ((operator t ns c boolValued sub).entries (subscriptOf operands result)
      (operands.map (·.hypertrie)) e) (·.1 = []) := by
  have hops : operands ≠ [] := by
    rintro rfl
    obtain ⟨o, ho, -⟩ := hempty
    cases ho
  obtain ⟨items, hitems, hspec⟩ := joinItems_spec hr c hp hops hne
  have hnothing (item) (hm : item ∈ items) (e : Entry K) : Ensures (sub.entries
      ((subscriptOf operands result).removeLabel (joinLabel c operands result)) item.2 e) (·.1 = []) := by
    obtain ⟨hp', hsc, hhyp, hcard, hempty'⟩ := hspec item hm
    have := hsub items hitems item hm hp' hcard (hempty' hempty) e
    rwa [hsc, hhyp] at this
  refine SubOperator.entries_nil (fun hd => ?_) fun hd => ?_
  · rw [generator_eq, hitems]
    exact generatorLoop_nil hnothing
  · rw [singleResult_eq, hitems]
    refine singleLoop_eq fun item hm e => ?_
    exact SubOperator.singleResult_zero (allResultDone_removeLabel hd _) (hnothing item hm e)

/-- A join fails with the sub-problem for a key part. -/
theorem JoinOperator.entries_eq_none {sub : SubOperator K V}
    (hitems : joinItems t ns c operands result = some items) (hm : item ∈ items)
    (h : ∀ e, sub.entries ((subscriptOf operands result).removeLabel (joinLabel c operands result))
      item.2 e = none) :
    (operator t ns c false sub).entries (subscriptOf operands result)
      (operands.map (·.hypertrie)) e = none := by
  rw [SubOperator.entries]
  by_cases hd : (subscriptOf operands result).allResultDone = true
  · rw [if_pos hd, Option.map_eq_none_iff, singleResult_eq, hitems]
    refine singleLoop_eq_none hm fun e => ?_
    exact SubOperator.singleResult_eq_none (allResultDone_removeLabel hd _) (h e)
  · rw [if_neg hd, generator_eq, hitems]
    exact generatorLoop_eq_none hm h

theorem JoinOperator.entries_eq_none_of_items {sub : SubOperator K V}
    (hitems : joinItems t ns c operands result = none) :
    (operator t ns c boolValued sub).entries (subscriptOf operands result)
      (operands.map (·.hypertrie)) e = none := by
  refine SubOperator.entries_eq_none ?_ ?_
  · rw [generator_eq, hitems]
    rfl
  · rw [singleResult_eq, hitems]
    rfl

end Join

omit [DecidableEq K] in
theorem HeldProblem.componentOf {t : HypertrieTrait K V} {F : Nat → Finset (SingleEntry K V) → Prop}
    {ns : NodeStorage M K V} {operands : List (LabelledOperand K V)} {result : List Label}
    (hp : HeldProblem t F ns operands result) (labels : Finset Label) :
    HeldProblem t F ns (operandsOf operands labels) (result.filter (· ∈ labels)) :=
  ⟨fun o ho => hp.held o (List.mem_filter.mp ho).1,
    (List.length_filter_le _ _).trans hp.length, hp.nodup.filter _⟩

namespace CartesianOperator

variable {t : HypertrieTrait K V} {F : Nat → Finset (SingleEntry K V) → Prop}
variable {ns : NodeStorage M K V} {c : EinsumChoices K V} {boolValued : Bool} {n : Nat}
variable {sub : SubOperator K V} {operands : List (LabelledOperand K V)} {result : List Label}
variable {e : Entry K} {cs ds pre post : List (Finset Label)} {labels d : Finset Label}

/-- The members of the operator for Cartesian products. -/
def operator (M : Type → Type → Type) [UnorderedMap M] (c : EinsumChoices K V) (boolValued : Bool)
    (sub : SubOperator K V) : SubOperator K V :=
  ⟨generator (M := M) c boolValued sub, singleResult (M := M) c boolValued sub⟩

/-- The entries of a component. -/
def componentEntries (sub : SubOperator K V) (operands : List (LabelledOperand K V))
    (result : List Label) (labels : Finset Label) : Option (List (Entry K) × Entry K) :=
  sub.entries (componentOf operands result labels).2.subscript (componentOf operands result labels).1
    (Entry.makeFilled (componentOf operands result labels).2.subscript.result.length 1)

/-- The component yields something exactly if it has a solution. -/
def ComponentRight (sub : SubOperator K V) (operands : List (LabelledOperand K V))
    (result : List Label) (labels : Finset Label) : Prop :=
  Ensures (componentEntries sub operands result labels)
    (fun res => res.1 ≠ [] ↔ (solutions (operandsOf operands labels)).Nonempty)

omit [DecidableEq K] in
theorem exists_hasEmpty (hp : HeldProblem t F ns operands result)
    (hc : (subscriptOf operands result).Splits cs) (h : HasEmpty operands) :
    ∃ d ∈ cs, HasEmpty (operandsOf operands d) := by
  obtain ⟨o, ho, hempty⟩ := h
  obtain ⟨l, hl⟩ := List.exists_mem_of_ne_nil _ (hp.held o ho).labels
  obtain ⟨d, hd, hld⟩ := (hc.mem l).mp (mem_labelSet.mpr ⟨o, ho, hl⟩)
  have hin : l ∈ o.labels.filter (· ∈ d) := List.mem_filter.mpr ⟨hl, decide_eq_true hld⟩
  exact ⟨d, hd, o, List.mem_filter.mpr ⟨ho, decide_eq_true (List.ne_nil_of_mem hin)⟩, hempty⟩

omit [DecidableEq K] in
theorem componentEntries_eq (hc : (subscriptOf operands result).Splits cs) (hm : labels ∈ cs) :
    componentEntries sub operands result labels =
      sub.entries (subscriptOf (operandsOf operands labels) (result.filter (· ∈ labels)))
        ((operandsOf operands labels).map (·.hypertrie))
        (Entry.makeFilled (result.filter (· ∈ labels)).length 1) := by
  rw [componentEntries, subscript_componentOf hc hm]
  rfl

/-- A component without an empty operand. -/
theorem componentRight_of_not (hs : sub.Right t F ns boolValued n)
    (hp : HeldProblem t F ns operands result) (hc : (subscriptOf operands result).Splits cs)
    (hm : labels ∈ cs) (hn : labels.card < n) (h : ¬ HasEmpty (operandsOf operands labels)) :
    ComponentRight sub operands result labels := by
  refine (component_entries hs ((hp.componentOf labels).problem h) hc hm hn).mono fun res hlists => ?_
  rw [hlists.ne_nil_iff, solutions_partOf hc hm]

omit [DecidableEq K] in
theorem componentRight_of_hasEmpty (hempty : HasEmpty (operandsOf operands labels))
    (h : Ensures (componentEntries sub operands result labels) (·.1 = [])) :
    ComponentRight sub operands result labels := by
  refine h.mono fun res hnil => iff_of_false (fun hne => hne hnil) ?_
  rw [solutions_of_hasEmpty hempty]
  exact Set.not_nonempty_empty

theorem getSubResults_cons (labels : Finset Label) (ds : List (Finset Label)) :
    getSubResults (M := M) boolValued sub ((labels :: ds).map (componentOf operands result)) =
      (componentEntries sub operands result labels).bind fun res =>
        if res.1 = [] then some none
        else (getSubResults (M := M) boolValued sub (ds.map (componentOf operands result))).bind
          fun results => some (results.map (collected (M := M) boolValued res.1 :: ·)) := by
  rw [List.map_cons, getSubResults]
  refine congrArg (Option.bind _) (funext fun res => ?_)
  exact if_congr (isEmpty_subResult boolValued res.1) rfl rfl

/-- As long as the components before have solutions, the next one is right. -/
def RightInOrder (sub : SubOperator K V) (operands : List (LabelledOperand K V))
    (result : List Label) (ds : List (Finset Label)) : Prop :=
  ∀ pre d post, ds = pre ++ d :: post →
    (∀ p ∈ pre, (solutions (operandsOf operands p)).Nonempty) → ComponentRight sub operands result d

/-- Results are collected if all components have solutions. -/
theorem getSubResults_ensures (h : RightInOrder sub operands result ds) :
    Ensures (getSubResults (M := M) boolValued sub (ds.map (componentOf operands result)))
      (fun results => ∀ outs, results = some outs → outs.length = ds.length ∧
        (∀ out ∈ outs, out ≠ []) ∧ ∀ d ∈ ds, (solutions (operandsOf operands d)).Nonempty) := by
  induction ds with
  | nil =>
    refine Ensures.pure fun outs houts => ?_
    obtain rfl := Option.some.inj houts
    simp
  | cons d ds ih =>
    rw [getSubResults_cons]
    refine Ensures.bind (h [] d ds rfl (by simp)) fun res hres => ?_
    by_cases hnil : res.1 = []
    · rw [if_pos hnil]
      exact Ensures.pure fun outs houts => by cases houts
    have hsol := hres.mp hnil
    have htail : RightInOrder sub operands result ds := by
      intro pre d' post hsplit hpre
      refine h (d :: pre) d' post (by rw [hsplit, List.cons_append]) ?_
      exact List.forall_mem_cons.mpr ⟨hsol, hpre⟩
    rw [if_neg hnil]
    refine Ensures.bind (ih htail) fun results hresults => Ensures.pure fun outs houts => ?_
    obtain ⟨outs, rfl, rfl⟩ := Option.map_eq_some_iff.mp houts
    obtain ⟨hlen, hne, hall⟩ := hresults outs rfl
    have hcollected : collected (M := M) boolValued res.1 ≠ [] := by
      intro h
      refine hnil ((isEmpty_subResult (M := M) boolValued res.1).mp ?_)
      rw [List.isEmpty_iff, ← List.map_eq_nil_iff]
      exact h
    exact ⟨congrArg Nat.succ hlen, List.forall_mem_cons.mpr ⟨hcollected, hne⟩,
      List.forall_mem_cons.mpr ⟨hsol, hall⟩⟩

omit [DecidableEq K] [Inhabited K] in
theorem allResultDone_componentOf (hc : (subscriptOf operands result).Splits cs) (hm : labels ∈ cs)
    (hd : (subscriptOf operands result).allResultDone = true) :
    (componentOf operands result labels).2.subscript.allResultDone = true := by
  rw [subscript_componentOf hc hm]
  refine done_iff.mpr fun l hl hu => done_iff.mp hd l (List.mem_filter.mp hl).1 ?_
  rw [labelSet_operandsOf hc hm] at hu
  exact (hc.mem l).mpr ⟨labels, hm, hu⟩

omit [DecidableEq K] in
/-- The iterated component is the one without a solution, if all others have one. -/
theorem componentEntries_last (hp : HeldProblem t F ns operands result)
    (hc : (subscriptOf operands result).Splits cs) (hperm : (labels :: ds).Perm cs)
    (hempty : HasEmpty operands) (h : RightInOrder sub operands result (ds ++ [labels]))
    (hall : ∀ d ∈ ds, (solutions (operandsOf operands d)).Nonempty) :
    Ensures (componentEntries sub operands result labels) (·.1 = []) := by
  have hno : ¬ (solutions (operandsOf operands labels)).Nonempty := by
    obtain ⟨d, hd, hempty⟩ := exists_hasEmpty hp hc hempty
    have hnone : ¬ (solutions (operandsOf operands d)).Nonempty := by
      rw [solutions_of_hasEmpty hempty]
      exact Set.not_nonempty_empty
    rcases List.mem_cons.mp (hperm.mem_iff.mpr hd) with rfl | hd
    · exact hnone
    · exact absurd (hall d hd) hnone
  refine (h ds labels [] rfl hall).mono fun res hres => ?_
  by_contra hne
  exact hno (hres.mp hne)

/-- What a Cartesian product yields if some operand is empty. -/
theorem entries_nil (hp : HeldProblem t F ns operands result)
    (hn : (labelSet operands).card < n + 1)
    (hcs : (subscriptOf operands result).connectedComponents c.sets = some cs) (hlen : 1 < cs.length)
    (hempty : HasEmpty operands)
    (h : RightInOrder sub operands result (evaluationOrder c operands result cs)) :
    Ensures ((operator M c boolValued sub).entries (subscriptOf operands result)
      (operands.map (·.hypertrie)) e) (·.1 = []) := by
  obtain ⟨components, i, labels, ds, hc, hperm, hextract, hiterated, hothers, horder, ⟨hm, -⟩, -⟩ :=
    extractSuboperands_spec hp.length hn hcs hlen
  rw [horder] at h
  have hright : RightInOrder sub operands result ds := fun pre d post hsplit =>
    h pre d (post ++ [labels]) (by rw [hsplit, List.append_assoc, List.cons_append])
  refine SubOperator.entries_nil (fun _ => ?_) fun hd => ?_
  · show Ensures (generator (M := M) c boolValued sub _ _ e) _
    rw [generator]
    simp only [hextract, hiterated, hothers, Option.bind_eq_bind, Option.bind_some]
    refine Ensures.bind (getSubResults_ensures (M := M) hright) fun results hresults => ?_
    cases results with
    | none => exact Ensures.pure rfl
    | some outs =>
      obtain ⟨-, -, hall⟩ := hresults outs rfl
      refine Ensures.bind (componentEntries_last hp hc hperm hempty h hall) ?_
      rintro ⟨out, e'⟩ hnil
      obtain rfl : out = [] := hnil
      exact Ensures.pure rfl
  · show Ensures (singleResult (M := M) c boolValued sub _ _ e) _
    rw [singleResult]
    simp only [hextract, hiterated, hothers, Option.bind_eq_bind, Option.bind_some]
    refine Ensures.bind (getSubResults_ensures (M := M) hright) fun results hresults => ?_
    cases results with
    | none => exact Ensures.pure rfl
    | some outs =>
      obtain ⟨hlength, hne, hall⟩ := hresults outs rfl
      have hlast := componentEntries_last hp hc hperm hempty h hall
      rw [componentEntries] at hlast
      have hzero := SubOperator.singleResult_zero (allResultDone_componentOf hc hm hd) hlast
      show Ensures (singleProduct boolValued sub _ _ _) _
      rw [singleProduct]
      refine Ensures.bind hzero fun iterated hvalue => ?_
      by_cases hb : boolValued = true
      · rw [if_pos hb]
        exact Ensures.pure hvalue
      · obtain ⟨current, rest, hsections⟩ := List.exists_cons_of_ne_nil (sections_ne_nil hne)
        have hmapping : ((ds.map (componentOf operands result)).map
            (fun comp => comp.2.originalResultPoss)).length = outs.length := by
          rw [List.length_map, List.length_map, hlength]
        rw [if_neg hb, FullCartesianResult.restart]
        simp only [FullCartesianResult.new,
          FullCartesianResult.restartFrom_spec hne hmapping hsections, Option.bind_eq_bind,
          Option.bind_some]
        refine Ensures.pure ?_
        show iterated.value * _ = 0
        rw [hvalue, Nat.zero_mul]

/-- A component of which the entries cannot be had, after others with solutions. -/
theorem getSubResults_eq_none (boolValued : Bool) (post : List (Finset Label))
    (hpre : ∀ p ∈ pre, Ensures (componentEntries sub operands result p) (·.1 ≠ []))
    (h : componentEntries sub operands result d = none) :
    getSubResults (M := M) boolValued sub ((pre ++ d :: post).map (componentOf operands result)) =
      none := by
  induction pre with
  | nil => rw [List.nil_append, getSubResults_cons, h, Option.bind_none]
  | cons p pre ih =>
    obtain ⟨res, hres, hne⟩ := hpre p List.mem_cons_self
    rw [List.cons_append, getSubResults_cons, hres, Option.bind_some, if_neg hne,
      ih fun p hp => hpre p (List.mem_cons_of_mem _ hp), Option.bind_none]

theorem getSubResults_eq_some (boolValued : Bool)
    (hpre : ∀ p ∈ ds, Ensures (componentEntries sub operands result p) (·.1 ≠ [])) :
    ∃ outs, getSubResults (M := M) boolValued sub (ds.map (componentOf operands result)) =
      some (some outs) := by
  induction ds with
  | nil => exact ⟨[], rfl⟩
  | cons p ds ih =>
    obtain ⟨res, hres, hne⟩ := hpre p List.mem_cons_self
    obtain ⟨outs, houts⟩ := ih fun p hp => hpre p (List.mem_cons_of_mem _ hp)
    rw [getSubResults_cons, hres, Option.bind_some, if_neg hne, houts]
    exact ⟨_, rfl⟩

/-- A Cartesian product fails with a component that is reached. -/
theorem entries_eq_none (hle : operands.length ≤ posTypeCount)
    (hn : (labelSet operands).card < n + 1)
    (hcs : (subscriptOf operands result).connectedComponents c.sets = some cs) (hlen : 1 < cs.length)
    (horder : evaluationOrder c operands result cs = pre ++ d :: post)
    (hpre : ∀ p ∈ pre, Ensures (componentEntries sub operands result p) (·.1 ≠ []))
    (h : componentEntries sub operands result d = none) :
    (operator M c boolValued sub).entries (subscriptOf operands result)
      (operands.map (·.hypertrie)) e = none := by
  obtain ⟨components, i, labels, ds, hc, hperm, hextract, hiterated, hothers, horder', ⟨hm, -⟩, -⟩ :=
    extractSuboperands_spec hle hn hcs hlen
  rw [horder'] at horder
  rcases List.eq_nil_or_concat post with rfl | ⟨post, last, rfl⟩
  · obtain ⟨rfl, hlast⟩ := List.append_inj' horder rfl
    obtain rfl := List.head_eq_of_cons_eq hlast
    obtain ⟨outs, houts⟩ := getSubResults_eq_some (M := M) boolValued hpre
    rw [componentEntries] at h
    rw [SubOperator.entries]
    by_cases hd : (subscriptOf operands result).allResultDone = true
    · have hsingle := SubOperator.singleResult_eq_none (allResultDone_componentOf hc hm hd) h
      rw [if_pos hd, Option.map_eq_none_iff]
      show singleResult (M := M) c boolValued sub _ _ e = none
      rw [singleResult]
      simp only [hextract, hiterated, hothers, houts, singleProduct, hsingle, Option.bind_eq_bind,
        Option.bind_some, Option.bind_none]
    · rw [if_neg hd]
      show generator (M := M) c boolValued sub _ _ e = none
      rw [generator]
      simp only [hextract, hiterated, hothers, houts, products, h, Option.bind_eq_bind,
        Option.bind_some, Option.bind_none]
  · have hsplit : ds = pre ++ d :: post := by
      rw [List.concat_eq_append, ← List.cons_append, ← List.append_assoc] at horder
      exact (List.append_inj' horder rfl).1
    have hresults := getSubResults_eq_none (M := M) boolValued post hpre h
    rw [← hsplit] at hresults
    have hgen : generator (M := M) c boolValued sub (subscriptOf operands result)
        (operands.map (·.hypertrie)) e = none := by
      rw [generator]
      simp only [hextract, hiterated, hothers, hresults, Option.bind_eq_bind, Option.bind_some,
        Option.bind_none]
    have hsingle : singleResult (M := M) c boolValued sub (subscriptOf operands result)
        (operands.map (·.hypertrie)) e = none := by
      rw [singleResult]
      simp only [hextract, hiterated, hothers, hresults, Option.bind_eq_bind, Option.bind_some,
        Option.bind_none]
    exact SubOperator.entries_eq_none hgen hsingle

end CartesianOperator

section Schedule

variable [DecidableEq V]
variable {t : HypertrieTrait K V} {F : Nat → Finset (SingleEntry K V) → Prop}
variable {ns : NodeStorage M K V} {c : EinsumChoices K V} {boolValued : Bool} {n : Nat}
variable {operands : List (LabelledOperand K V)} {result : List Label} {e : Entry K}
variable {o : LabelledOperand K V} {d : Finset Label} {cs : List (Finset Label)}

/-- The operator that is scheduled for a type. -/
def operatorOf (t : HypertrieTrait K V) (ns : NodeStorage M K V) (c : EinsumChoices K V)
    (boolValued : Bool) (n : Nat) : SubscriptType → SubOperator K V
  | .join => JoinOperator.operator t ns c boolValued (getSubOperator (M := M) t ns c boolValued n)
  | .resolve => ⟨ResolveOperator.generator t ns, fun _ _ => ResolveOperator.singleResult⟩
  | .count => ⟨fun _ _ => CountOperator.generator, fun _ => CountOperator.singleResult t ns boolValued⟩
  | .cartesian => CartesianOperator.operator M c boolValued (getSubOperator (M := M) t ns c boolValued n)
  | .entryGenerator =>
    ⟨fun _ _ => EntryGeneratorOperator.generator, fun _ _ => EntryGeneratorOperator.singleResult⟩

theorem entries_getSubOperator {sc : Subscript} {hs : List (ConstHypertrie K V)} {type : SubscriptType}
    (htype : sc.type c.sets = some type) :
    (getSubOperator (M := M) t ns c boolValued (n + 1)).entries sc hs e =
      (operatorOf t ns c boolValued n type).entries sc hs e := by
  simp only [SubOperator.entries, getSubOperator, htype, Option.bind_some]
  cases type <;> rfl

/-- Resolving goes through no entry. -/
theorem ResolveOperator.entries_nil (hr : Readable t F ns) (ho : o.Held t F ns) (hempty : o.entries = ∅)
    (hsub : ∀ l ∈ o.labels, l ∈ result) :
    Ensures ((operatorOf t ns c boolValued n .resolve).entries (subscriptOf [o] result)
      [o.hypertrie] e) (·.1 = []) := by
  have hdepth : 0 < o.hypertrie.depth := ho.depth_pos
  refine SubOperator.entries_nil (fun _ => ?_) fun hd => ?_
  · show Ensures (generator t ns _ _ e) _
    rw [generator]
    simp only [List.head?_cons, Option.bind_eq_bind, Option.bind_some]
    refine Ensures.bind (ConstHypertrie.entries_spec hr ho.holds hdepth) fun entries hentries => ?_
    have hnil : entries = [] := List.eq_nil_iff_forall_not_mem.mpr fun entry hm => by
      have := (hentries.2 entry).mp hm
      rw [hempty] at this
      cases this
    subst hnil
    exact Ensures.pure rfl
  · obtain ⟨l, hl⟩ := List.exists_mem_of_ne_nil _ ho.labels
    refine absurd ?_ (done_iff.mp hd l (hsub l hl))
    rw [labelSet_singleton]
    exact List.mem_toFinset.mpr hl

/-- There are no entries to count, unless a bool value says that there are. -/
theorem CountOperator.entries_nil (hr : Readable t F ns) (ho : o.Held t F ns) (hempty : o.entries = ∅)
    (hno : ∀ l ∈ o.labels, l ∉ result) :
    Ensures ((operatorOf t ns c false n .count).entries (subscriptOf [o] result) [o.hypertrie] e)
      (·.1 = []) := by
  have hdepth : 0 < o.hypertrie.depth := ho.depth_pos
  refine SubOperator.entries_nil (fun hd => ?_) fun _ => ?_
  · refine absurd (hd.symm.trans (done_iff.mpr fun l hl hu => ?_)) Bool.false_ne_true
    rw [labelSet_singleton] at hu
    exact hno l (List.mem_toFinset.mp hu) hl
  · show Ensures (singleResult t ns false _ e) _
    rw [singleResult, if_neg Bool.false_ne_true]
    simp only [List.head?_cons, Option.bind_eq_bind, Option.bind_some]
    refine Ensures.bind (ConstHypertrie.size_spec hr ho.holds hdepth) fun size hsize => ?_
    rw [hempty, Finset.card_empty] at hsize
    exact Ensures.pure hsize

omit [DecidableEq K] [DecidableEq V] [Inhabited K] in
theorem mem_of_mem_evaluationOrder (hle : operands.length ≤ posTypeCount)
    (hn : (labelSet operands).card < n + 1)
    (hcs : (subscriptOf operands result).connectedComponents c.sets = some cs) (hlen : 1 < cs.length)
    (hd : d ∈ CartesianOperator.evaluationOrder c operands result cs) :
    (subscriptOf operands result).Splits cs ∧ d ∈ cs ∧ d.card < n := by
  obtain ⟨-, -, labels, ds, hc, -, -, -, -, horder, hlabels, hds⟩ :=
    CartesianOperator.extractSuboperands_spec hle hn hcs hlen
  rw [horder] at hd
  rcases List.mem_append.mp hd with hd | hd
  · exact ⟨hc, hds d hd⟩
  · obtain rfl := List.mem_singleton.mp hd
    exact ⟨hc, hlabels⟩

/-- Nothing is yielded as long as no empty operand is looked into. -/
theorem getSubOperator_nil (hr : Readable t F ns) (hp : HeldProblem t F ns operands result)
    (hempty : HasEmpty operands) (hn : (labelSet operands).card < n)
    (hreach : ¬ ReachesEmpty t ns c boolValued operands result) (e : Entry K) :
    Ensures ((getSubOperator (M := M) t ns c boolValued n).entries (subscriptOf operands result)
      (operands.map (·.hypertrie)) e) (·.1 = []) := by
  induction n generalizing operands result e with
  | zero => exact absurd hn (Nat.not_lt_zero _)
  | succ n ih =>
    obtain ⟨type, htype, hsched⟩ := type_spec c.sets operands result
    rw [entries_getSubOperator htype]
    cases hsched with
    | join _ =>
      refine JoinOperator.entries_nil hr c hp hempty (fun o ho hl he => hreach (.join htype ho hl he)) ?_
      intro items hitems item hm operands' hp' hcard hempty' e
      exact ih hp' hempty' (by omega) (fun h => hreach (.item htype hitems hm h)) e
    | cartesian hcs hlen =>
      refine CartesianOperator.entries_nil hp hn hcs hlen hempty fun pre d post horder hpre => ?_
      obtain ⟨hc, hm, hcard⟩ := mem_of_mem_evaluationOrder hp.length hn hcs hlen (d := d)
        (by rw [horder]; simp)
      by_cases h : HasEmpty (operandsOf operands d)
      · refine CartesianOperator.componentRight_of_hasEmpty h ?_
        rw [CartesianOperator.componentEntries_eq hc hm]
        refine ih (hp.componentOf d) h ?_ (fun h => hreach (.component htype hcs horder hpre h)) _
        rwa [labelSet_operandsOf hc hm]
      · exact CartesianOperator.componentRight_of_not (getSubOperator_right hr c boolValued n) hp hc hm
          hcard h
    | @resolve o _ hsub =>
      obtain ⟨o', ho', he⟩ := hempty
      obtain rfl := List.mem_singleton.mp ho'
      exact ResolveOperator.entries_nil hr (hp.held _ ho') he hsub
    | @count o _ hno =>
      obtain ⟨o', ho', he⟩ := hempty
      obtain rfl := List.mem_singleton.mp ho'
      cases boolValued with
      | true => exact absurd (.count rfl htype he) hreach
      | false => exact CountOperator.entries_nil hr (hp.held _ ho') he hno
    | entryGenerator =>
      obtain ⟨o, ho, -⟩ := hempty
      cases ho

/-- Without tagging, a number is not computed from an empty operand that is looked into. -/
theorem getSubOperator_eq_none (hr : Readable t F ns) (hplace : ∀ d, t.inPlaceNode d = false)
    (hp : HeldProblem t F ns operands result) (hn : (labelSet operands).card < n)
    (hreach : ReachesEmpty t ns c false operands result) (e : Entry K) :
    (getSubOperator (M := M) t ns c false n).entries (subscriptOf operands result)
      (operands.map (·.hypertrie)) e = none := by
  induction hreach generalizing n e with
  | join htype ho hlabel hempty =>
    obtain ⟨n, rfl⟩ := Nat.exists_eq_add_one_of_ne_zero (Nat.ne_zero_of_lt hn)
    rw [entries_getSubOperator htype]
    exact JoinOperator.entries_eq_none_of_items
      (joinItems_eq_none hr (hp.held _ ho) hplace ho hlabel hempty)
  | @item operands result items item htype hitems hm _ ih =>
    obtain ⟨n, rfl⟩ := Nat.exists_eq_add_one_of_ne_zero (Nat.ne_zero_of_lt hn)
    have hops : operands ≠ [] := by
      rintro rfl
      cases htype
    have hne : ∀ o ∈ operands, joinLabel c operands result ∈ o.labels → o.entries ≠ ∅ := by
      intro o ho hlabel hempty
      rw [joinItems_eq_none hr (hp.held o ho) hplace ho hlabel hempty] at hitems
      cases hitems
    obtain ⟨items', hitems', hspec⟩ := joinItems_spec hr c hp hops hne
    obtain rfl := Option.some.inj (hitems.symm.trans hitems')
    obtain ⟨hp', hsc, hhyp, hcard, -⟩ := hspec item hm
    rw [entries_getSubOperator htype]
    refine JoinOperator.entries_eq_none hitems hm fun e => ?_
    have := ih hp' (n := n) (by omega) e
    rwa [hsc, hhyp] at this
  | count hbool => cases hbool
  | @component operands result cs pre post d htype hcs horder hpre _ ih =>
    obtain ⟨n, rfl⟩ := Nat.exists_eq_add_one_of_ne_zero (Nat.ne_zero_of_lt hn)
    have hlen : 1 < cs.length := by
      obtain ⟨type, htype', hsched⟩ := type_spec c.sets operands result
      obtain rfl := Option.some.inj (htype.symm.trans htype')
      cases hsched with
      | cartesian hcs' hlen =>
        obtain rfl := Option.some.inj (hcs.symm.trans hcs')
        exact hlen
    have hmem (p : Finset Label) (hp' : p ∈ pre ++ d :: post) :=
      mem_of_mem_evaluationOrder hp.length hn hcs hlen (d := p) (horder ▸ hp')
    rw [entries_getSubOperator htype]
    refine CartesianOperator.entries_eq_none hp.length hn hcs hlen horder (fun p hpm => ?_) ?_
    · obtain ⟨hc, hm, hcard⟩ := hmem p (List.mem_append_left _ hpm)
      have hnot : ¬ HasEmpty (operandsOf operands p) := fun h => by
        have := hpre p hpm
        rw [solutions_of_hasEmpty h] at this
        exact Set.not_nonempty_empty this
      refine (CartesianOperator.componentRight_of_not (getSubOperator_right hr c false n) hp hc hm hcard
        hnot).mono fun res hres => hres.mpr (hpre p hpm)
    · obtain ⟨hc, hm, hcard⟩ := hmem d (List.mem_append_right _ List.mem_cons_self)
      rw [CartesianOperator.componentEntries_eq hc hm]
      refine ih (hp.componentOf d) ?_ _
      rwa [labelSet_operandsOf hc hm]

end Schedule

section Einsum

variable [DecidableEq V]
variable {t : HypertrieTrait K V} {ns : NodeStorage M K V} {roots : Multiset (Root K V)}
variable {operands : List (LabelledOperand K V)} {result : List Label} {c : EinsumChoices K V}
variable {boolValued : Bool} {hash : Entry K → BitVec 64}

theorem einsum_eq_nil (h : ∀ e, Ensures ((getSubOperator (M := M) t ns c boolValued
      ((labelSet operands).card + 1)).entries (subscriptOf operands result)
      (operands.map (·.hypertrie)) e) (·.1 = [])) :
    einsum (M := M) t ns c boolValued hash (subscriptOf operands result)
      (operands.map (·.hypertrie)) = some [] := by
  have hresult : (subscriptOf operands result).result = result := rfl
  rw [einsum, operandsLabelSet_subscriptOf, hresult]
  by_cases hd : (subscriptOf operands result).allResultDone = true
  · obtain ⟨e, he, hvalue⟩ := SubOperator.singleResult_zero hd (h (Entry.makeFilled result.length 1))
    have hzero : ¬ e.value ≠ 0 := fun hne => hne hvalue
    simp only [if_pos hd, he, Option.bind_eq_bind, Option.bind_some, if_neg hzero]
  · obtain ⟨⟨out, e⟩, hout, hnil⟩ :=
      SubOperator.generator_nil (by simpa using hd) (h (Entry.makeFilled result.length 1))
    obtain rfl : out = [] := hnil
    simp only [if_neg hd, hout, Option.bind_eq_bind, Option.bind_some]
    cases boolValued <;> rfl

theorem einsum_eq_none (hash : Entry K → BitVec 64) (h : ∀ e, (getSubOperator (M := M) t ns c boolValued
      ((labelSet operands).card + 1)).entries (subscriptOf operands result)
      (operands.map (·.hypertrie)) e = none) :
    einsum (M := M) t ns c boolValued hash (subscriptOf operands result)
      (operands.map (·.hypertrie)) = none := by
  have hresult : (subscriptOf operands result).result = result := rfl
  rw [einsum, operandsLabelSet_subscriptOf, hresult]
  by_cases hd : (subscriptOf operands result).allResultDone = true
  · have hnone := SubOperator.singleResult_eq_none hd (h (Entry.makeFilled result.length 1))
    simp only [if_pos hd, hnone, Option.bind_eq_bind, Option.bind_none]
  · have hnone := SubOperator.generator_eq_none (by simpa using hd)
      (h (Entry.makeFilled result.length 1))
    simp only [if_neg hd, hnone, Option.bind_eq_bind, Option.bind_none]

/-- The estimation does not look into an empty operand. Einsum with one returns and yields nothing if
the evaluation does not either; for numbers and without tagged key parts, only then. -/
theorem einsum_empty_iff (hc : Canonical t ns roots) (hn : NoCollision t roots)
    (hh : ∀ o ∈ operands, o.Held t (Live roots) ns) (hempty : ∃ o ∈ operands, o.entries = ∅)
    (hlen : operands.length ≤ posTypeCount) (hnodup : result.Nodup) (c : EinsumChoices K V)
    (boolValued : Bool) (hash : Entry K → BitVec 64) :
    (∀ label, Ensures (CardinalityEstimation.labelCards t ns (subscriptOf operands result)
        (operands.map (·.hypertrie)) label)
      (List.Forall₂ (fun o cards => cards ≠ [] ∧ (o.entries = ∅ → ∀ card ∈ cards, card = 0))
        (operands.filter (label ∈ ·.labels)))) ∧
    CardinalityEstimation.operandSizes t ns (operands.map (·.hypertrie)) =
      some (operands.map (·.entries.card)) ∧
    (¬ ReachesEmpty t ns c boolValued operands result →
      einsum (M := M) t ns c boolValued hash (subscriptOf operands result)
        (operands.map (·.hypertrie)) = some []) ∧
    (boolValued = false → (∀ d, t.inPlaceNode d = false) →
      (einsum (M := M) t ns c boolValued hash (subscriptOf operands result)
        (operands.map (·.hypertrie)) = some [] ↔ ¬ ReachesEmpty t ns c boolValued operands result)) := by
  have hr := hc.readable hn
  have hp : HeldProblem t (Live roots) ns operands result := ⟨hh, hlen, hnodup⟩
  have hnil (hreach : ¬ ReachesEmpty t ns c boolValued operands result) :
      einsum (M := M) t ns c boolValued hash (subscriptOf operands result)
        (operands.map (·.hypertrie)) = some [] :=
    einsum_eq_nil fun e => getSubOperator_nil hr hp hempty (Nat.lt_succ_self _) hreach e
  refine ⟨CardinalityEstimation.labelCards_spec hr hp, CardinalityEstimation.operandSizes_spec hr hp, hnil,
    fun hb hplace => ⟨fun heq hreach => ?_, hnil⟩⟩
  subst hb
  have hnone := einsum_eq_none (M := M) (c := c) hash
    fun e => getSubOperator_eq_none hr hplace hp (Nat.lt_succ_self _) hreach e
  rw [hnone] at heq
  cases heq

/-- An empty operand of depth 1. -/
def emptyLabel (label : Label) : LabelledOperand (BitVec 64) Bool := ⟨.new 1, [label], ∅⟩

theorem emptyLabel_held (label : Label) {F : Nat → Finset (SingleEntry (BitVec 64) Bool) → Prop}
    (ns : NodeStorage AssocMap (BitVec 64) Bool) : (emptyLabel label).Held defaultBoolTrait F ns :=
  ⟨ConstHypertrie.holds_new Nat.one_pos, rfl, List.cons_ne_nil _ _, fun _ => rfl⟩

/-- Resolving the only operand looks into nothing. -/
theorem not_reachesEmpty_of_resolve {ns : NodeStorage AssocMap (BitVec 64) Bool}
    {operands : List (LabelledOperand (BitVec 64) Bool)} {result : List Label}
    (htype : (subscriptOf operands result).type .least = some .resolve) :
    ¬ ReachesEmpty defaultBoolTrait ns (.first _ _) false operands result := by
  intro h
  cases h with
  | join htype' | item htype' | component htype' => cases htype.symm.trans htype'
  | count hbool => cases hbool

/-- The empty operand and another one are resolved for their product. -/
theorem einsum_empty_iff_resolve : ∃ ns : NodeStorage AssocMap (BitVec 64) Bool,
    CardinalityEstimation.operandSizes defaultBoolTrait ns
      ([singleLabel 98 {8, 9}, emptyLabel 97].map (·.hypertrie)) = some [2, 0] ∧
    einsum (M := AssocMap) defaultBoolTrait ns (.first _ _) false (fun _ => 0)
      (subscriptOf [singleLabel 98 {8, 9}, emptyLabel 97] [97, 98])
      ([singleLabel 98 {8, 9}, emptyLabel 97].map (·.hypertrie)) = some [] := by
  obtain ⟨ns, roots, hc, hn, hv⟩ := exists_singleLabel
  have hheld : ∀ o ∈ [singleLabel 98 {8, 9}, emptyLabel 97], o.Held defaultBoolTrait (Live roots) ns := by
    intro o ho
    rcases List.mem_pair.mp ho with rfl | rfl
    · exact (hv 98).2.held
    · exact emptyLabel_held 97 ns
  have htype : (subscriptOf [singleLabel 98 {8, 9}, emptyLabel 97] [97, 98]).type .least =
      some .cartesian := by decide +kernel
  have hcs : (subscriptOf [singleLabel 98 {8, 9}, emptyLabel 97] [97, 98]).connectedComponents .least =
      some [{97}, {98}] := by decide +kernel
  obtain ⟨-, hsizes, hnil, -⟩ := einsum_empty_iff (M := AssocMap) hc hn hheld
    ⟨emptyLabel 97, by simp, rfl⟩ (by decide) (by decide : ([97, 98] : List Label).Nodup)
    (.first _ _) false (fun _ => 0)
  refine ⟨ns, hsizes.trans (by decide), hnil fun h => ?_⟩
  cases h with
  | join htype' | item htype' => cases htype.symm.trans htype'
  | component _ hcs' horder _ h =>
    obtain rfl := Option.some.inj (hcs.symm.trans hcs')
    obtain ⟨-, hmem, -⟩ := mem_of_mem_evaluationOrder (n := 3) (by decide) (by decide) hcs
      (by decide) (horder ▸ List.mem_append_right _ List.mem_cons_self)
    rcases List.mem_pair.mp hmem with rfl | rfl
    · exact not_reachesEmpty_of_resolve (by decide +kernel) h
    · exact not_reachesEmpty_of_resolve (by decide +kernel) h

/-- A join with an empty operand looks for its only entry. -/
theorem einsum_empty_join : ∃ (ns : NodeStorage AssocMap (BitVec 64) Bool)
    (roots : Multiset (Root (BitVec 64) Bool)),
    Canonical defaultBoolTrait ns roots ∧ NoCollision defaultBoolTrait roots ∧
    (∀ o ∈ [emptyLabel 97, singleLabel 97 {7}], o.Held defaultBoolTrait (Live roots) ns) ∧
    (emptyLabel 97).entries = ∅ ∧
    einsum (M := AssocMap) defaultBoolTrait ns (.first _ _) false (fun _ => 0)
      (subscriptOf [emptyLabel 97, singleLabel 97 {7}] [97])
      ([emptyLabel 97, singleLabel 97 {7}].map (·.hypertrie)) = none := by
  obtain ⟨ns, roots, hc, hn, hv⟩ := exists_singleLabel
  have hheld : ∀ o ∈ [emptyLabel 97, singleLabel 97 {7}], o.Held defaultBoolTrait (Live roots) ns := by
    intro o ho
    rcases List.mem_pair.mp ho with rfl | rfl
    · exact emptyLabel_held 97 ns
    · exact (hv 97).1.held
  have htype : (subscriptOf [emptyLabel 97, singleLabel 97 {7}] [97]).type
      (EinsumChoices.first (BitVec 64) Bool).sets = some .join := by decide +kernel
  have hreach : ReachesEmpty defaultBoolTrait ns (.first _ _) false
      [emptyLabel 97, singleLabel 97 {7}] [97] :=
    .join htype List.mem_cons_self List.mem_cons_self rfl
  refine ⟨ns, roots, hc, hn, hheld, rfl, einsum_eq_none _ fun e => ?_⟩
  exact getSubOperator_eq_none (hc.readable hn) (fun _ => rfl) ⟨hheld, by decide, by decide⟩
    (Nat.lt_succ_self _) hreach e

end Einsum

end Hypertrie
