import Hypertrie.RemainingEntry

/-! The invariant of the requests for one depth. Every new node has a recipe
that leads to it from stored nodes and given entries, and every request changes
the reference counts by the node it asks for and the node it releases. -/

namespace Hypertrie

open UnorderedMap

variable {M : Type → Type → Type} [UnorderedMap M] {K V : Type}
variable [DecidableEq K] [DecidableEq V] [Inhabited K]
variable {t : HypertrieTrait K V} {F : Nat → Finset (SingleEntry K V) → Prop}
variable {ns : NodeStorage M K V} {d : Nat} {ur : UpdateRequests M K V} {id : RawIdentifier}

/-- Nodes with this identifier have a reference count; those stored in place have none. -/
def Tracked (t : HypertrieTrait K V) (d : Nat) (id : RawIdentifier) : Prop :=
  t.isFn id = true ∨ t.inPlaceNode d = false

/-- The update leads from `S` to `T`. -/
def UpdateFits (S T : Finset (SingleEntry K V)) (entries : List (SingleEntry K V)) :
    EntriesUpdateMode → Prop
  | .insert => Disjoint S entries.toFinset ∧ T = S ∪ entries.toFinset
  | .erase => entries.toFinset ⊆ S ∧ T = S \ entries.toFinset

/-- The update makes the target from a stored source. -/
def UpdateSound (t : HypertrieTrait K V) (F : Nat → Finset (SingleEntry K V) → Prop)
    (ns : NodeStorage M K V) (d : Nat) (sourceId targetId : RawIdentifier)
    (data : FNEntriesUpdateData K V) : Prop :=
  contains (ns.fns d) sourceId = true ∧ data.entries.Nodup ∧
    ∃ S T, F d S ∧ F d T ∧ 2 ≤ S.card ∧ 2 ≤ T.card ∧ sourceId = t.ident d S ∧
      targetId = t.ident d T ∧ UpdateFits S T data.entries data.mode

namespace UpdateRequests

/-- The requested change of a reference count. -/
def delta (t : HypertrieTrait K V) (ur : UpdateRequests M K V) (id : RawIdentifier) : Int :=
  if t.isFn id then (find ur.fnDeltas id).getD 0
  else ((find ur.senChanges id).map SENChange.refCountDelta).getD 0

/-- There is a request from which the node can be made. -/
def HasRecipe (ur : UpdateRequests M K V) (id : RawIdentifier) : Prop :=
  contains ur.fnCreations id = true ∨
    ∃ sourceId targets, find ur.fnUpdateEntries sourceId = some targets ∧ contains targets id = true

structure Valid (t : HypertrieTrait K V) (F : Nat → Finset (SingleEntry K V) → Prop)
    (ns : NodeStorage M K V) (d : Nat) (ur : UpdateRequests M K V) : Prop where
  delta_isFn : ∀ {id δ}, find ur.fnDeltas id = some δ → t.isFn id = true
  delta_nonpos : ∀ {id δ}, find ur.fnDeltas id = some δ → δ ≤ 0 →
    contains ur.fnDeletionCandidates id = true
  candidate_stored : ∀ {id}, contains ur.fnDeletionCandidates id = true →
    contains (ns.fns d) id = true
  new_delta : ∀ {id}, contains ur.fnPotentiallyNew id = true → contains ur.fnDeltas id = true
  delta_new : ∀ {id}, contains ur.fnDeltas id = true → contains (ns.fns d) id = false →
    contains ur.fnPotentiallyNew id = true
  recipe : ∀ {id}, contains ur.fnPotentiallyNew id = true → contains (ns.fns d) id = false →
    ur.HasRecipe id
  creation : ∀ {id entries}, find ur.fnCreations id = some entries →
    F d entries.toFinset ∧ 2 ≤ entries.toFinset.card ∧ entries.Nodup ∧
      id = t.ident d entries.toFinset
  update : ∀ {sourceId targets targetId data}, find ur.fnUpdateEntries sourceId = some targets →
    find targets targetId = some data → UpdateSound t F ns d sourceId targetId data
  sen_isSen : ∀ {id change}, find ur.senChanges id = some change → t.isSen id = true
  sen_entry : ∀ {id change e}, find ur.senChanges id = some change → change.entry = some e →
    F d {e} ∧ id = t.tagAsSen (t.hashOf {e})
  sen_new : ∀ {id change}, find ur.senChanges id = some change →
    contains (ns.sens d) id = false → 0 ≤ change.refCountDelta ∧ change.entry.isSome = true

theorem Valid.new : (UpdateRequests.new : UpdateRequests M K V).Valid t F ns d := by
  constructor <;> simp [UpdateRequests.new, contains]

omit [DecidableEq K] [DecidableEq V] [Inhabited K] in
@[simp]
theorem delta_new (t : HypertrieTrait K V) (id : RawIdentifier) :
    (UpdateRequests.new : UpdateRequests M K V).delta t id = 0 := by
  simp [delta, UpdateRequests.new]

section ApplyRefCountDelta

omit [DecidableEq K] [DecidableEq V] [Inhabited K]

theorem applyRefCountDelta_incr_fn (h : t.isFn id = true) :
    ur.applyRefCountDelta t d id 1 = { ur with
      fnDeltas := assign ur.fnDeltas id ((find ur.fnDeltas id).getD 0 + 1),
      fnPotentiallyNew := assign ur.fnPotentiallyNew id () } := by
  simp [applyRefCountDelta, h]

theorem applyRefCountDelta_decr_fn (h : t.isFn id = true) :
    ur.applyRefCountDelta t d id (-1) = { ur with
      fnDeltas := assign ur.fnDeltas id ((find ur.fnDeltas id).getD 0 + -1),
      fnDeletionCandidates := assign ur.fnDeletionCandidates id () } := by
  simp [applyRefCountDelta, h]

theorem applyRefCountDelta_sen {δ : Int} (h : t.isFn id = false) (hp : t.inPlaceNode d = false)
    (hδ : δ ≠ 0) :
    ur.applyRefCountDelta t d id δ = ur.setSenChange id
      { ur.senChange id with refCountDelta := (ur.senChange id).refCountDelta + δ } := by
  simp [applyRefCountDelta, h, hp, hδ]

theorem applyRefCountDelta_untracked {δ : Int} (h : ¬ Tracked t d id) :
    ur.applyRefCountDelta t d id δ = ur := by
  unfold Tracked at h
  push Not at h
  have hf : t.isFn id = false := by simpa using h.1
  have hp : t.inPlaceNode d = true := by simpa using h.2
  simp [applyRefCountDelta, hf, hp]

theorem isFn_of_isSen (hs : t.isSen id = true) : t.isFn id = false := by
  rw [HypertrieTrait.isSen] at hs
  simp only [Bool.and_eq_true, Bool.not_eq_true'] at hs
  simp only [HypertrieTrait.isFn, hs.1, hs.2, Bool.not_true, Bool.and_false]

theorem delta_of_isSen (hs : t.isSen id = true) :
    ur.delta t id = (ur.senChange id).refCountDelta := by
  unfold delta senChange
  rw [isFn_of_isSen hs]
  cases find ur.senChanges id with
  | none => rfl
  | some change => rfl

theorem delta_setSenChange (hs : t.isSen id = true) (change : SENChange K V) (c : RawIdentifier) :
    (ur.setSenChange id change).delta t c =
      if c = id then change.refCountDelta else ur.delta t c := by
  have hf := isFn_of_isSen hs
  unfold delta setSenChange
  by_cases hc : c = id
  · subst hc
    simp [hf]
  · simp [find_assign_ne _ _ hc, hc]

theorem delta_applyRefCountDelta (δ : Int) {c : RawIdentifier} (hc : Tracked t d c) :
    (ur.applyRefCountDelta t d id δ).delta t c = ur.delta t c + if c = id then δ else 0 := by
  by_cases hδ : δ = 0
  · simp [applyRefCountDelta, hδ]
  by_cases ht : Tracked t d id
  · cases hf : t.isFn id with
    | true =>
      have hd : (ur.applyRefCountDelta t d id δ).fnDeltas =
          assign ur.fnDeltas id ((find ur.fnDeltas id).getD 0 + δ) := by
        unfold applyRefCountDelta
        rw [if_neg hδ, hf, if_pos rfl]
        dsimp only
        split <;> rfl
      have hs : (ur.applyRefCountDelta t d id δ).senChanges = ur.senChanges := by
        unfold applyRefCountDelta
        rw [if_neg hδ, hf, if_pos rfl]
        dsimp only
        split <;> rfl
      unfold delta
      rw [hd, hs]
      by_cases he : c = id
      · subst he
        simp [hf]
      · simp [find_assign_ne _ _ he, he]
    | false =>
      have hp : t.inPlaceNode d = false := ht.resolve_left (by simp [hf])
      rw [applyRefCountDelta_sen hf hp hδ]
      unfold delta setSenChange senChange
      by_cases he : c = id
      · subst he
        rw [hf]
        cases h : find ur.senChanges c with
        | none => simp
        | some change => simp
      · simp [find_assign_ne _ _ he, he]
  · have he : c ≠ id := fun he => ht (he ▸ hc)
    rw [applyRefCountDelta_untracked ht]
    simp [he]

end ApplyRefCountDelta

namespace Valid

theorem addMoveTarget (h : ur.Valid t F ns d) (id : RawIdentifier) :
    (ur.addMoveTarget id).Valid t F ns d :=
  ⟨h.delta_isFn, h.delta_nonpos, h.candidate_stored, h.new_delta, h.delta_new, h.recipe,
    h.creation, h.update, h.sen_isSen, h.sen_entry, h.sen_new⟩

theorem addCreation (h : ur.Valid t F ns d) {newEntries : List (SingleEntry K V)}
    (hF : F d newEntries.toFinset) (hc : 2 ≤ newEntries.toFinset.card) (hn : newEntries.Nodup) :
    (ur.addCreation (t.ident d newEntries.toFinset) newEntries).Valid t F ns d := by
  unfold UpdateRequests.addCreation
  refine ⟨h.delta_isFn, h.delta_nonpos, h.candidate_stored, h.new_delta, h.delta_new, ?_, ?_,
    h.update, h.sen_isSen, h.sen_entry, h.sen_new⟩
  · intro id hid hnew
    rcases h.recipe hid hnew with hr | hr
    · refine Or.inl ?_
      obtain ⟨entries, he⟩ := contains_iff.mp hr
      rw [contains_iff]
      dsimp only
      rw [find_emplace]
      split
      · exact ⟨_, rfl⟩
      · exact ⟨entries, he⟩
    · exact Or.inr hr
  · intro id entries he
    dsimp only at he
    rw [find_emplace] at he
    split at he
    next hid =>
      cases hold : find ur.fnCreations (t.ident d newEntries.toFinset) with
      | some old =>
        rw [hold, Option.getD_some, Option.some.injEq] at he
        rw [he] at hold
        rw [hid]
        exact h.creation hold
      | none =>
        rw [hold, Option.getD_none, Option.some.injEq] at he
        rw [← he]
        exact ⟨hF, hc, hn, hid⟩
    next => exact h.creation he

theorem addUpdate (h : ur.Valid t F ns d) {sourceId targetId : RawIdentifier}
    {data : FNEntriesUpdateData K V} (hu : UpdateSound t F ns d sourceId targetId data) :
    (ur.addUpdate sourceId targetId data).Valid t F ns d := by
  unfold UpdateRequests.addUpdate
  refine ⟨h.delta_isFn, h.delta_nonpos, h.candidate_stored, h.new_delta, h.delta_new, ?_,
    h.creation, ?_, h.sen_isSen, h.sen_entry, h.sen_new⟩
  · intro id hid hnew
    rcases h.recipe hid hnew with hr | ⟨source, targets, hs, ht⟩
    · exact Or.inl hr
    · refine Or.inr ?_
      by_cases he : source = sourceId
      · subst he
        refine ⟨source, _, find_assign_self _ _ _, ?_⟩
        rw [hs, Option.getD_some, contains_iff, find_emplace]
        obtain ⟨data', hd'⟩ := contains_iff.mp ht
        split
        · exact ⟨_, rfl⟩
        · exact ⟨data', hd'⟩
      · exact ⟨source, targets, by rw [← hs]; exact find_assign_ne _ _ he, ht⟩
  · intro source targets target data' hs ht
    dsimp only at hs
    rw [find_assign] at hs
    split at hs
    next he =>
      subst he
      rw [Option.some.injEq] at hs
      rw [← hs, find_emplace] at ht
      have hold : ∀ {target data'},
          find ((find ur.fnUpdateEntries source).getD empty) target = some data' →
          UpdateSound t F ns d source target data' := by
        intro target data' hf
        cases hc : find ur.fnUpdateEntries source with
        | none => simp [hc] at hf
        | some changes =>
          rw [hc, Option.getD_some] at hf
          exact h.update hc hf
      split at ht
      next htt =>
        subst htt
        cases hc : find ((find ur.fnUpdateEntries source).getD empty) target with
        | none =>
          rw [hc, Option.getD_none, Option.some.injEq] at ht
          rw [← ht]
          exact hu
        | some data'' =>
          rw [hc, Option.getD_some, Option.some.injEq] at ht
          rw [← ht]
          exact hold hc
      next => exact hold ht
    next => exact h.update hs ht

theorem setSenChange (h : ur.Valid t F ns d) {change : SENChange K V} (hs : t.isSen id = true)
    (he : ∀ e, change.entry = some e → F d {e} ∧ id = t.tagAsSen (t.hashOf {e}))
    (hnew : contains (ns.sens d) id = false →
      0 ≤ change.refCountDelta ∧ change.entry.isSome = true) :
    (ur.setSenChange id change).Valid t F ns d := by
  unfold UpdateRequests.setSenChange
  refine ⟨h.delta_isFn, h.delta_nonpos, h.candidate_stored, h.new_delta, h.delta_new, h.recipe,
    h.creation, h.update, ?_, ?_, ?_⟩
  · intro id' change' hf
    dsimp only at hf
    rw [find_assign] at hf
    split at hf
    next hid => rw [hid, hs]
    next => exact h.sen_isSen hf
  · intro id' change' e hf
    dsimp only at hf
    rw [find_assign] at hf
    split at hf
    next hid =>
      rw [Option.some.injEq] at hf
      rw [hid, ← hf]
      exact he e
    next => exact h.sen_entry hf
  · intro id' change' hf
    dsimp only at hf
    rw [find_assign] at hf
    split at hf
    next hid =>
      rw [Option.some.injEq] at hf
      rw [hid, ← hf]
      exact hnew
    next => exact h.sen_new hf

/-- The reference count of a stored single-entry node may change. -/
theorem changeSen (h : ur.Valid t F ns d) {δ : Int} (hid : id ≠ seed) (hf : t.isFn id = false)
    (hsen : t.isSen id = true → t.inPlaceNode d = false → contains (ns.sens d) id = true)
    (hδ : δ ≠ 0) : (ur.applyRefCountDelta t d id δ).Valid t F ns d := by
  have hs : t.isSen id = true := by
    have := HypertrieTrait.isFn_eq_not_isSen (t := t) hid
    rw [hf] at this
    simpa using this.symm
  cases hp : t.inPlaceNode d with
  | true =>
    rw [applyRefCountDelta_untracked (by simp [Tracked, hf, hp])]
    exact h
  | false =>
    rw [applyRefCountDelta_sen hf hp hδ]
    refine h.setSenChange hs ?_ ?_
    · intro e he
      unfold UpdateRequests.senChange at he
      cases hc : find ur.senChanges id with
      | none => simp [hc] at he
      | some change =>
        rw [hc] at he
        exact h.sen_entry hc he
    · intro hn
      rw [hsen hs hp] at hn
      cases hn

/-- A node that is stored or has a recipe may get one more reference. -/
theorem incr (h : ur.Valid t F ns d) (hid : id ≠ seed)
    (hfn : t.isFn id = true → contains (ns.fns d) id = true ∨ ur.HasRecipe id)
    (hsen : t.isSen id = true → t.inPlaceNode d = false → contains (ns.sens d) id = true) :
    (ur.applyRefCountDelta t d id 1).Valid t F ns d := by
  cases hf : t.isFn id with
  | true =>
    rw [applyRefCountDelta_incr_fn hf]
    refine ⟨?_, ?_, h.candidate_stored, ?_, ?_, ?_, h.creation, h.update, h.sen_isSen,
      h.sen_entry, h.sen_new⟩
    · intro id' δ hd
      dsimp only at hd
      rw [find_assign] at hd
      split at hd
      next he => rw [he, hf]
      next => exact h.delta_isFn hd
    · intro id' δ hd hδ
      dsimp only at hd ⊢
      rw [find_assign] at hd
      split at hd
      next he =>
        rw [Option.some.injEq] at hd
        cases hold : find ur.fnDeltas id with
        | none =>
          rw [hold, Option.getD_none] at hd
          omega
        | some old =>
          rw [hold, Option.getD_some] at hd
          rw [he]
          exact h.delta_nonpos hold (by omega)
      next => exact h.delta_nonpos hd hδ
    · intro id' hn
      dsimp only at hn ⊢
      rw [contains_iff, find_assign] at hn ⊢
      split at hn
      next he => simp [he]
      next he =>
        rw [if_neg he, ← contains_iff]
        exact h.new_delta (contains_iff.mpr hn)
    · intro id' hd hns
      dsimp only at hd ⊢
      rw [contains_iff, find_assign] at hd ⊢
      split at hd
      next he => simp [he]
      next he =>
        rw [if_neg he, ← contains_iff]
        exact h.delta_new (contains_iff.mpr hd) hns
    · intro id' hn hns
      dsimp only at hn
      rw [contains_iff, find_assign] at hn
      split at hn
      next he =>
        subst he
        rcases hfn hf with hst | hr
        · rw [hst] at hns
          cases hns
        · exact hr
      next => exact h.recipe (contains_iff.mpr hn) hns
  | false => exact h.changeSen hid hf hsen (by omega)

/-- A stored node may lose a reference. -/
theorem decr (h : ur.Valid t F ns d) (hid : id ≠ seed)
    (hfn : t.isFn id = true → contains (ns.fns d) id = true)
    (hsen : t.isSen id = true → t.inPlaceNode d = false → contains (ns.sens d) id = true) :
    (ur.applyRefCountDelta t d id (-1)).Valid t F ns d := by
  cases hf : t.isFn id with
  | true =>
    have hst := hfn hf
    rw [applyRefCountDelta_decr_fn hf]
    refine ⟨?_, ?_, ?_, ?_, ?_, h.recipe, h.creation, h.update, h.sen_isSen,
      h.sen_entry, h.sen_new⟩
    · intro id' δ hd
      dsimp only at hd
      rw [find_assign] at hd
      split at hd
      next he => rw [he, hf]
      next => exact h.delta_isFn hd
    · intro id' δ hd hδ
      dsimp only at hd ⊢
      rw [contains_iff, find_assign]
      rw [find_assign] at hd
      split at hd
      next he => simp [he]
      next he =>
        rw [if_neg he, ← contains_iff]
        exact h.delta_nonpos hd hδ
    · intro id' hc
      dsimp only at hc
      rw [contains_iff, find_assign] at hc
      split at hc
      next he => rw [he, hst]
      next => exact h.candidate_stored (contains_iff.mpr hc)
    · intro id' hn
      dsimp only at hn ⊢
      rw [contains_iff, find_assign]
      split
      · exact ⟨_, rfl⟩
      · exact contains_iff.mp (h.new_delta hn)
    · intro id' hd hns
      dsimp only at hd ⊢
      rw [contains_iff, find_assign] at hd
      split at hd
      next he =>
        rw [he, hst] at hns
        cases hns
      next => exact h.delta_new (contains_iff.mpr hd) hns
  | false => exact h.changeSen hid hf hsen (by omega)

end Valid

end UpdateRequests

end Hypertrie
