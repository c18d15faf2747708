import Hypertrie.UpdatePlan
import Hypertrie.RequestInvariant

/-! What the plan makes of valid requests: which nodes it creates, in which way,
and which ones it gives up. -/

namespace Hypertrie

open UnorderedMap

variable {M : Type → Type → Type} [UnorderedMap M] {K V : Type}
variable {t : HypertrieTrait K V} {F : Nat → Finset (SingleEntry K V) → Prop}
variable {ns : NodeStorage M K V} {d : Nat} {ur : UpdateRequests M K V}

namespace UpdatePlan

theorem contains_fnToBeCreated (fns : M RawIdentifier (FullNode M K V)) (ur : UpdateRequests M K V)
    (id : RawIdentifier) : contains (fnToBeCreated fns ur) id = true ↔
      contains ur.fnPotentiallyNew id = true ∧ contains fns id = false := by
  have hgen : ∀ (l : List (RawIdentifier × Unit)) (ret : M RawIdentifier Unit),
      contains (l.foldl (fun ret p => if contains fns p.1 then ret else assign ret p.1 ()) ret) id
        = true ↔ contains ret id = true ∨ id ∈ l.map Prod.fst ∧ contains fns id = false := by
    intro l
    induction l with
    | nil => intro ret; simp
    | cons p l ih =>
      intro ret
      rw [List.foldl_cons, ih]
      by_cases hp : contains fns p.1 = true
      · simp only [hp, if_true, List.map_cons, List.mem_cons]
        constructor
        · rintro (h | ⟨h, hn⟩)
          · exact Or.inl h
          · exact Or.inr ⟨Or.inr h, hn⟩
        · rintro (h | ⟨rfl | h, hn⟩)
          · exact Or.inl h
          · rw [hp] at hn
            cases hn
          · exact Or.inr ⟨h, hn⟩
      · have hf : contains fns p.1 = false := by simpa using hp
        simp only [hf, Bool.false_eq_true, if_false, List.map_cons, List.mem_cons, contains_assign]
        constructor
        · rintro ((rfl | h) | ⟨h, hn⟩)
          · exact Or.inr ⟨Or.inl rfl, hf⟩
          · exact Or.inl h
          · exact Or.inr ⟨Or.inr h, hn⟩
        · rintro (h | ⟨rfl | h, hn⟩)
          · exact Or.inl (Or.inr h)
          · exact Or.inl (Or.inl rfl)
          · exact Or.inr ⟨h, hn⟩
  refine (hgen _ _).trans ?_
  rw [mem_keys]
  simp [contains]

/-- Nothing refers to the node any more. -/
def Unreferenced (fns : M RawIdentifier (FullNode M K V)) (ur : UpdateRequests M K V)
    (id : RawIdentifier) : Prop :=
  ∃ n δ, find fns id = some n ∧ find ur.fnDeltas id = some δ ∧ (n.refCount : Int) + δ = 0

/-- The deltas that remain when those without effect and those of deleted nodes are dropped. -/
structure DeletionsPlanned (fns : M RawIdentifier (FullNode M K V)) (ur : UpdateRequests M K V)
    (acc : M RawIdentifier Unit × M RawIdentifier Int) : Prop where
  deleted : ∀ id, contains acc.1 id = true ↔ Unreferenced fns ur id
  deltas : ∀ id δ, find acc.2 id = some δ ↔
    find ur.fnDeltas id = some δ ∧ δ ≠ 0 ∧ ¬ Unreferenced fns ur id

variable [DecidableEq K] [DecidableEq V] [Inhabited K]

theorem planDeletion_spec (h : ur.Valid t F ns d)
    (hpos : ∀ id n, find (ns.fns d) id = some n → 0 < n.refCount) :
    Ensures (((entries ur.fnDeletionCandidates).map Prod.fst).foldlM (planDeletion (ns.fns d))
      (empty, ur.fnDeltas)) (DeletionsPlanned (ns.fns d) ur) := by
  have hcand : ∀ id δ, find ur.fnDeltas id = some δ → (δ = 0 ∨ Unreferenced (ns.fns d) ur id) →
      id ∈ (entries ur.fnDeletionCandidates).map Prod.fst := by
    intro id δ hd hor
    rw [mem_keys]
    apply h.delta_nonpos hd
    rcases hor with rfl | ⟨n, δ', hn, hd', hsum⟩
    · exact le_rfl
    · rw [hd, Option.some.injEq] at hd'
      have := hpos id n hn
      omega
  refine (Ensures.foldlM (I := fun rest acc => rest.Nodup ∧
      (∀ id ∈ rest, contains (ns.fns d) id = true) ∧
      (∀ id, contains acc.1 id = true ↔ Unreferenced (ns.fns d) ur id ∧ id ∉ rest) ∧
      ∀ id δ, find acc.2 id = some δ ↔ find ur.fnDeltas id = some δ ∧
        (id ∈ rest ∨ δ ≠ 0 ∧ ¬ Unreferenced (ns.fns d) ur id))
    ⟨nodup_keys _, ?_, ?_, ?_⟩ ?_).mono ?_
  · intro id hid
    exact h.candidate_stored (mem_keys.mp hid)
  · intro id
    constructor
    · intro hc
      simp [contains] at hc
    · rintro ⟨⟨n, δ, hn, hd, hsum⟩, hnot⟩
      exact absurd (hcand id δ hd (Or.inr ⟨n, δ, hn, hd, hsum⟩)) hnot
  · intro id δ
    constructor
    · intro hd
      refine ⟨hd, ?_⟩
      by_contra hor
      push Not at hor
      obtain ⟨hni, himp⟩ := hor
      by_cases hz : δ = 0
      · exact hni (hcand id δ hd (Or.inl hz))
      · exact hni (hcand id δ hd (Or.inr (himp hz)))
    · exact fun hd => hd.1
  · rintro id rest acc ⟨hnd, hst, hdel, hdelta⟩
    obtain ⟨hir, hnr⟩ := List.nodup_cons.mp hnd
    obtain ⟨n, hn⟩ := contains_iff.mp (hst id List.mem_cons_self)
    have hst' := fun id' hi => hst id' (List.mem_cons_of_mem _ hi)
    have hsame : find acc.2 id = find ur.fnDeltas id := by
      cases hd : find ur.fnDeltas id with
      | some δ => exact (hdelta id δ).mpr ⟨hd, Or.inl List.mem_cons_self⟩
      | none =>
        cases ha : find acc.2 id with
        | none => rfl
        | some δ =>
          have := ((hdelta id δ).mp ha).1
          rw [hd] at this
          cases this
    -- the case in which the count is not dropped: the candidate is no longer pending
    have hkeep : ∀ acc' : M RawIdentifier Unit × M RawIdentifier Int,
        (contains acc'.1 id = true ↔ Unreferenced (ns.fns d) ur id) →
        (∀ id', id' ≠ id → (contains acc'.1 id' = contains acc.1 id')) →
        (∀ δ, find acc'.2 id = some δ ↔ find ur.fnDeltas id = some δ ∧ δ ≠ 0 ∧
          ¬ Unreferenced (ns.fns d) ur id) →
        (∀ id', id' ≠ id → find acc'.2 id' = find acc.2 id') →
        rest.Nodup ∧ (∀ id ∈ rest, contains (ns.fns d) id = true) ∧
          (∀ id, contains acc'.1 id = true ↔ Unreferenced (ns.fns d) ur id ∧ id ∉ rest) ∧
          ∀ id δ, find acc'.2 id = some δ ↔ find ur.fnDeltas id = some δ ∧
            (id ∈ rest ∨ δ ≠ 0 ∧ ¬ Unreferenced (ns.fns d) ur id) := by
      intro acc' hdel₁ hdel₂ hdelta₁ hdelta₂
      refine ⟨hnr, hst', fun id' => ?_, fun id' δ => ?_⟩
      · by_cases he : id' = id
        · rw [he, hdel₁]
          exact ⟨fun hu => ⟨hu, hir⟩, fun hu => hu.1⟩
        · rw [hdel₂ id' he, hdel id']
          simp [he]
      · by_cases he : id' = id
        · rw [he, hdelta₁ δ]
          simp [hir]
        · rw [hdelta₂ id' he, hdelta id' δ]
          simp [he]
    unfold planDeletion
    rw [hsame]
    cases hd : find ur.fnDeltas id with
    | none =>
      have hnu : ¬ Unreferenced (ns.fns d) ur id := by
        rintro ⟨-, δ, -, hd', -⟩
        rw [hd] at hd'
        cases hd'
      refine Ensures.pure (hkeep acc ?_ (fun _ _ => rfl) ?_ (fun _ _ => rfl))
      · rw [hdel id]
        exact ⟨fun hu => hu.1, fun hu => absurd hu hnu⟩
      · intro δ
        rw [hsame, hd]
        simp
    | some δ =>
      dsimp only
      by_cases hz : δ = 0
      · rw [if_pos hz]
        have hnu : ¬ Unreferenced (ns.fns d) ur id := by
          rintro ⟨n', δ', hn', hd', hsum⟩
          rw [hd, Option.some.injEq] at hd'
          have := hpos id n' hn'
          omega
        refine Ensures.pure (hkeep _ ?_ (fun _ _ => rfl) ?_ ?_)
        · rw [hdel id]
          exact ⟨fun hu => hu.1, fun hu => absurd hu hnu⟩
        · intro δ'
          rw [find_erase_self, hd, Option.some.injEq]
          constructor
          · intro h
            cases h
          · rintro ⟨rfl, hne, -⟩
            exact absurd hz hne
        · intro id' he
          exact find_erase_ne _ he
      · rw [if_neg hz, hn]
        simp only [Option.bind_eq_bind, Option.bind_some]
        by_cases hsum : (n.refCount : Int) + δ = 0
        · have hu : Unreferenced (ns.fns d) ur id := ⟨n, δ, hn, hd, hsum⟩
          rw [if_pos hsum]
          refine Ensures.pure (hkeep _ ?_ ?_ ?_ ?_)
          · simp [contains_assign, hu]
          · intro id' he
            unfold contains
            rw [find_assign_ne _ _ he]
          · intro δ'
            rw [find_erase_self]
            simp [hu]
          · intro id' he
            exact find_erase_ne _ he
        · have hnu : ¬ Unreferenced (ns.fns d) ur id := by
            rintro ⟨n', δ', hn', hd', hsum'⟩
            rw [hn, Option.some.injEq] at hn'
            rw [hd, Option.some.injEq] at hd'
            rw [hn', hd'] at hsum
            exact hsum hsum'
          rw [if_neg hsum]
          refine Ensures.pure (hkeep acc ?_ (fun _ _ => rfl) ?_ (fun _ _ => rfl))
          · rw [hdel id]
            exact ⟨fun hu => hu.1, fun hu => absurd hu hnu⟩
          · intro δ'
            rw [hsame, hd, Option.some.injEq]
            constructor
            · rintro rfl
              exact ⟨rfl, hz, hnu⟩
            · exact fun h => h.1
  · rintro acc ⟨-, -, hdel, hdelta⟩
    exact ⟨fun id => by simpa using hdel id, fun id δ => by simpa using hdelta id δ⟩

/-- The lists while sources are planned. What is still to be created has a recipe from scratch, or
one among the sources and targets that are still to come. -/
structure ListsPlanned (t : HypertrieTrait K V) (F : Nat → Finset (SingleEntry K V) → Prop)
    (ns : NodeStorage M K V) (d : Nat) (ur : UpdateRequests M K V)
    (toBeCreated₀ fnDelete₀ : M RawIdentifier Unit) (coming : RawIdentifier → Prop)
    (acc : UpdateLists M K V) : Prop where
  sound : ∀ u ∈ acc.fnUpdateCopy ++ acc.fnUpdateMove,
    UpdateSound t F ns d u.sourceId u.targetId ⟨u.entries, u.mode⟩
  nodup : (acc.fnUpdateCopy.map FNEntriesUpdate.targetId ++
    acc.fnUpdateMove.map FNEntriesUpdate.targetId).Nodup
  open_iff : ∀ id, contains acc.toBeCreated id = true ↔ contains toBeCreated₀ id = true ∧
    id ∉ acc.fnUpdateCopy.map FNEntriesUpdate.targetId ++
      acc.fnUpdateMove.map FNEntriesUpdate.targetId
  target_open : ∀ id ∈ acc.fnUpdateCopy.map FNEntriesUpdate.targetId ++
    acc.fnUpdateMove.map FNEntriesUpdate.targetId, contains toBeCreated₀ id = true
  moved_nodup : (acc.fnUpdateMove.map FNEntriesUpdate.sourceId).Nodup
  deleted_iff : ∀ id, contains acc.fnDelete id = true ↔ contains fnDelete₀ id = true ∧
    id ∉ acc.fnUpdateMove.map FNEntriesUpdate.sourceId
  moved_deleted : ∀ id ∈ acc.fnUpdateMove.map FNEntriesUpdate.sourceId,
    contains fnDelete₀ id = true
  covered : ∀ id, contains acc.toBeCreated id = true →
    contains ur.fnCreations id = true ∨ coming id

theorem ListsPlanned.mono {toBeCreated₀ fnDelete₀ : M RawIdentifier Unit}
    {coming coming' : RawIdentifier → Prop} {acc : UpdateLists M K V}
    (h : ListsPlanned t F ns d ur toBeCreated₀ fnDelete₀ coming acc)
    (hc : ∀ id, contains acc.toBeCreated id = true → coming id → coming' id) :
    ListsPlanned t F ns d ur toBeCreated₀ fnDelete₀ coming' acc :=
  ⟨h.sound, h.nodup, h.open_iff, h.target_open, h.moved_nodup, h.deleted_iff, h.moved_deleted,
    fun id hid => (h.covered id hid).imp_right (hc id hid)⟩

/-- One target of a source. -/
theorem planTarget_spec {toBeCreated₀ fnDelete₀ : M RawIdentifier Unit}
    (coming : RawIdentifier → Prop) {sourceId : RawIdentifier}
    {target : RawIdentifier × FNEntriesUpdateData K V} {acc : UpdateLists M K V × Bool}
    (h : ListsPlanned t F ns d ur toBeCreated₀ fnDelete₀
      (fun id => id = target.1 ∨ coming id) acc.1)
    (hmove : acc.2 = true → contains acc.1.fnDelete sourceId = true)
    (hs : UpdateSound t F ns d sourceId target.1 target.2) :
    ListsPlanned t F ns d ur toBeCreated₀ fnDelete₀ coming (planTarget sourceId acc target).1 ∧
      ((planTarget sourceId acc target).2 = true →
        contains (planTarget sourceId acc target).1.fnDelete sourceId = true) := by
  unfold planTarget
  by_cases hopen : contains acc.1.toBeCreated target.1 = true
  · obtain ⟨h₀, hnew⟩ := (h.open_iff target.1).mp hopen
    rw [if_pos hopen]
    by_cases hm : acc.2 = true
    · have hdel := hmove hm
      obtain ⟨hd₀, hnm⟩ := (h.deleted_iff sourceId).mp hdel
      rw [if_pos hm]
      refine ⟨⟨?_, ?_, ?_, ?_, ?_, ?_, ?_, ?_⟩, fun hf => by cases hf⟩
      · intro u hu
        rw [← List.append_assoc, List.mem_append, List.mem_singleton] at hu
        rcases hu with hu | rfl
        · exact h.sound u hu
        · exact hs
      · rw [List.map_append, ← List.append_assoc]
        exact List.nodup_append.mpr ⟨h.nodup, List.nodup_singleton _, fun a ha b hb hab => by
          rw [List.map_singleton, List.mem_singleton] at hb
          rw [hab, hb] at ha
          exact hnew ha⟩
      · intro id
        dsimp only
        rw [contains_erase, h.open_iff]
        simp only [List.map_append, List.map_cons, List.map_nil, List.mem_append, List.mem_singleton]
        tauto
      · intro id hid
        dsimp only at hid
        rw [List.map_append, ← List.append_assoc, List.mem_append, List.map_singleton,
          List.mem_singleton] at hid
        rcases hid with hid | rfl
        · exact h.target_open id hid
        · exact h₀
      · dsimp only
        rw [List.map_append]
        exact List.nodup_append.mpr ⟨h.moved_nodup, List.nodup_singleton _, fun a ha b hb hab => by
          rw [List.map_singleton, List.mem_singleton] at hb
          rw [hab, hb] at ha
          exact hnm ha⟩
      · intro id
        dsimp only
        rw [contains_erase, h.deleted_iff, List.map_append, List.mem_append, List.map_singleton,
          List.mem_singleton]
        tauto
      · intro id hid
        dsimp only at hid
        rw [List.map_append, List.mem_append, List.map_singleton, List.mem_singleton] at hid
        rcases hid with hid | rfl
        · exact h.moved_deleted id hid
        · exact hd₀
      · intro id hid
        dsimp only at hid
        rw [contains_erase] at hid
        rcases h.covered id hid.2 with hc | rfl | hc
        · exact Or.inl hc
        · exact absurd rfl hid.1
        · exact Or.inr hc
    · rw [if_neg hm]
      refine ⟨⟨?_, ?_, ?_, ?_, h.moved_nodup, h.deleted_iff, h.moved_deleted, ?_⟩,
        fun hf => by cases hf⟩
      · intro u hu
        rw [List.mem_append, List.mem_append, List.mem_singleton] at hu
        rcases hu with (hu | rfl) | hu
        · exact h.sound u (List.mem_append_left _ hu)
        · exact hs
        · exact h.sound u (List.mem_append_right _ hu)
      · have hperm : (acc.1.fnUpdateCopy.map FNEntriesUpdate.targetId ++ [target.1] ++
            acc.1.fnUpdateMove.map FNEntriesUpdate.targetId).Perm
            (target.1 :: (acc.1.fnUpdateCopy.map FNEntriesUpdate.targetId ++
              acc.1.fnUpdateMove.map FNEntriesUpdate.targetId)) := by
          rw [List.append_assoc]
          exact List.perm_middle
        rw [List.map_append]
        exact hperm.nodup_iff.mpr (List.nodup_cons.mpr ⟨hnew, h.nodup⟩)
      · intro id
        dsimp only
        rw [contains_erase, h.open_iff, List.map_append, List.mem_append, List.mem_append,
          List.mem_append, List.map_singleton, List.mem_singleton]
        tauto
      · intro id hid
        dsimp only at hid
        rw [List.map_append, List.mem_append, List.mem_append, List.map_singleton,
          List.mem_singleton] at hid
        rcases hid with (hid | rfl) | hid
        · exact h.target_open id (List.mem_append_left _ hid)
        · exact h₀
        · exact h.target_open id (List.mem_append_right _ hid)
      · intro id hid
        dsimp only at hid
        rw [contains_erase] at hid
        rcases h.covered id hid.2 with hc | rfl | hc
        · exact Or.inl hc
        · exact absurd rfl hid.1
        · exact Or.inr hc
  · rw [if_neg hopen]
    refine ⟨h.mono ?_, hmove⟩
    rintro id hid (rfl | hc)
    · exact absurd hid hopen
    · exact hc

theorem planSource_spec {toBeCreated₀ fnDelete₀ : M RawIdentifier Unit}
    {coming : RawIdentifier → Prop}
    {source : RawIdentifier × M RawIdentifier (FNEntriesUpdateData K V)} {acc : UpdateLists M K V}
    (h : ListsPlanned t F ns d ur toBeCreated₀ fnDelete₀
      (fun id => contains source.2 id = true ∨ coming id) acc)
    (hs : ∀ target data, find source.2 target = some data →
      UpdateSound t F ns d source.1 target data) :
    ListsPlanned t F ns d ur toBeCreated₀ fnDelete₀ coming (planSource acc source) := by
  have hinv := foldl_invariant (f := planTarget source.1)
    (I := fun rest acc => (∀ p ∈ rest, UpdateSound t F ns d source.1 p.1 p.2) ∧
      ListsPlanned t F ns d ur toBeCreated₀ fnDelete₀
        (fun id => id ∈ rest.map Prod.fst ∨ coming id) acc.1 ∧
      (acc.2 = true → contains acc.1.fnDelete source.1 = true))
    (l := entries source.2) (s := (acc, contains acc.fnDelete source.1))
    ⟨fun p hp => hs p.1 p.2 ((mem_entries _ _ _).mp hp),
      h.mono fun id _ hc => hc.imp_left mem_keys.mpr, id⟩ (by
      rintro p rest acc' ⟨hsound, hl, hm⟩
      have hstep := planTarget_spec (fun id => id ∈ rest.map Prod.fst ∨ coming id)
        (hl.mono fun id _ hc => by simpa [or_assoc] using hc) hm (hsound p List.mem_cons_self)
      exact ⟨fun q hq => hsound q (List.mem_cons_of_mem _ hq), hstep⟩)
  exact hinv.2.1.mono fun id _ hc => by simpa using hc

/-- The plan creates the requested nodes that are not stored and gives up the stored ones that
nothing refers to any more, each of them once. -/
structure Planned (t : HypertrieTrait K V) (F : Nat → Finset (SingleEntry K V) → Prop)
    (ns : NodeStorage M K V) (d : Nat) (ur : UpdateRequests M K V) (plan : UpdatePlan M K V) :
    Prop where
  create : ∀ c ∈ plan.fnCreate, F d c.entries.toFinset ∧ 2 ≤ c.entries.toFinset.card ∧
    c.entries.Nodup ∧ c.id = t.ident d c.entries.toFinset
  update : ∀ u ∈ plan.fnUpdateCopy ++ plan.fnUpdateMove,
    UpdateSound t F ns d u.sourceId u.targetId ⟨u.entries, u.mode⟩
  targets_nodup : (plan.fnCreate.map FNCreation.id ++
    (plan.fnUpdateCopy.map FNEntriesUpdate.targetId ++
      plan.fnUpdateMove.map FNEntriesUpdate.targetId)).Nodup
  targets_iff : ∀ id, id ∈ plan.fnCreate.map FNCreation.id ++
    (plan.fnUpdateCopy.map FNEntriesUpdate.targetId ++
      plan.fnUpdateMove.map FNEntriesUpdate.targetId) ↔
        contains ur.fnDeltas id = true ∧ contains (ns.fns d) id = false
  removed_nodup : (plan.fnUpdateMove.map FNEntriesUpdate.sourceId ++
    (entries plan.fnDelete).map Prod.fst).Nodup
  removed_iff : ∀ id, id ∈ plan.fnUpdateMove.map FNEntriesUpdate.sourceId ++
    (entries plan.fnDelete).map Prod.fst ↔ Unreferenced (ns.fns d) ur id
  deltas : ∀ id δ, find plan.fnDeltas id = some δ ↔
    find ur.fnDeltas id = some δ ∧ δ ≠ 0 ∧ ¬ Unreferenced (ns.fns d) ur id
  sens : ∀ id change, find plan.senChanges id = some change ↔
    find ur.senChanges id = some change ∧ change.refCountDelta ≠ 0

omit [DecidableEq K] [DecidableEq V] [Inhabited K] in
theorem find_senChanges (changes : M RawIdentifier (SENChange K V)) (id : RawIdentifier)
    (change : SENChange K V) :
    find ((entries changes).foldl dropIfUnchanged changes) id = some change ↔
      find changes id = some change ∧ change.refCountDelta ≠ 0 := by
  have hgen : ∀ (l : List (RawIdentifier × SENChange K V)) (m : M RawIdentifier (SENChange K V)),
      (l.map Prod.fst).Nodup → (∀ p ∈ l, find m p.1 = some p.2) →
      (find (l.foldl dropIfUnchanged m) id = some change ↔
        find m id = some change ∧ (id ∈ l.map Prod.fst → change.refCountDelta ≠ 0)) := by
    intro l
    induction l with
    | nil => intro m _ _; simp
    | cons p l ih =>
      intro m hn hl
      obtain ⟨hp, hn⟩ := List.nodup_cons.mp hn
      have hpm := hl p List.mem_cons_self
      rw [List.foldl_cons, dropIfUnchanged]
      by_cases hz : p.2.refCountDelta = 0
      · have hne : ∀ q ∈ l, q.1 ≠ p.1 := fun q hq he => hp (he ▸ List.mem_map_of_mem hq)
        have hl' : ∀ q ∈ l, find (erase m p.1) q.1 = some q.2 := by
          intro q hq
          rw [find_erase_ne _ (hne q hq)]
          exact hl q (List.mem_cons_of_mem _ hq)
        have h := ih (erase m p.1) hn hl'
        rw [if_pos hz, h, find_erase, List.map_cons, List.mem_cons]
        by_cases hid : id = p.1
        · subst hid
          rw [if_pos rfl, hpm, Option.some.injEq]
          constructor
          · rintro ⟨h, -⟩
            cases h
          · rintro ⟨rfl, hnz⟩
            exact absurd hz (hnz (Or.inl rfl))
        · simp [hid]
      · have h := ih m hn (fun q hq => hl q (List.mem_cons_of_mem _ hq))
        rw [if_neg hz, h, List.map_cons, List.mem_cons]
        constructor
        · rintro ⟨hf, hnz⟩
          refine ⟨hf, ?_⟩
          rintro (rfl | hid)
          · rw [hpm, Option.some.injEq] at hf
            rwa [← hf]
          · exact hnz hid
        · rintro ⟨hf, hnz⟩
          exact ⟨hf, fun hid => hnz (Or.inr hid)⟩
  rw [hgen _ _ (nodup_keys changes) (fun p hp => (mem_entries _ _ _).mp hp), mem_keys]
  constructor
  · rintro ⟨hf, hnz⟩
    exact ⟨hf, hnz (contains_iff.mpr ⟨_, hf⟩)⟩
  · rintro ⟨hf, hnz⟩
    exact ⟨hf, fun _ => hnz⟩

theorem ofRequests_spec (h : ur.Valid t F ns d)
    (hpos : ∀ id n, find (ns.fns d) id = some n → 0 < n.refCount) :
    Ensures (ofRequests (ns.fns d) ur) (Planned t F ns d ur) := by
  unfold ofRequests
  refine Ensures.bind (planDeletion_spec h hpos) fun acc hdel => Ensures.pure ?_
  have hlists := foldl_invariant (f := planSource)
    (I := fun rest lists =>
      (∀ p ∈ rest, ∀ target data, find p.2 target = some data →
        UpdateSound t F ns d p.1 target data) ∧
      ListsPlanned t F ns d ur (fnToBeCreated (ns.fns d) ur) acc.1
        (fun id => ∃ p ∈ rest, contains p.2 id = true) lists)
    (l := entries ur.fnUpdateEntries) (s := ⟨fnToBeCreated (ns.fns d) ur, acc.1, [], []⟩)
    ⟨fun p hp target data hf => h.update ((mem_entries _ _ _).mp hp) hf,
      ⟨by simp, by simp, by simp, by simp, by simp, by simp, by simp, by
        intro id hid
        obtain ⟨hn, hns⟩ := (contains_fnToBeCreated _ _ _).mp hid
        rcases h.recipe hn hns with hc | ⟨source, targets, hs, ht⟩
        · exact Or.inl hc
        · exact Or.inr ⟨(source, targets), (mem_entries _ _ _).mpr hs, ht⟩⟩⟩ (by
      rintro p rest lists ⟨hsound, hl⟩
      refine ⟨fun q hq => hsound q (List.mem_cons_of_mem _ hq),
        planSource_spec (hl.mono ?_) (hsound p List.mem_cons_self)⟩
      rintro id _ ⟨q, hq, hc⟩
      rcases List.mem_cons.mp hq with rfl | hq
      · exact Or.inl hc
      · exact Or.inr ⟨q, hq, hc⟩)
  obtain ⟨-, hl⟩ := hlists
  dsimp only
  generalize (entries ur.fnUpdateEntries).foldl planSource
    ⟨fnToBeCreated (ns.fns d) ur, acc.1, [], []⟩ = lists at hl
  have hcreateIds (f : RawIdentifier × Unit → FNCreation K V) (hf : ∀ p, (f p).id = p.1) :
      ((entries lists.toBeCreated).map f).map FNCreation.id =
        (entries lists.toBeCreated).map Prod.fst := by
    rw [List.map_map]
    exact List.map_congr_left fun p _ => hf p
  refine ⟨?_, hl.sound, ?_, ?_, ?_, ?_, hdel.deltas, fun id change => find_senChanges _ id change⟩
  · intro c hc
    obtain ⟨⟨id, u⟩, hid, rfl⟩ := List.mem_map.mp hc
    have hopen : contains lists.toBeCreated id = true := mem_keys.mp (List.mem_map_of_mem hid)
    rcases hl.covered id hopen with hcr | ⟨q, hq, -⟩
    · obtain ⟨es, hes⟩ := contains_iff.mp hcr
      dsimp only
      rw [hes, Option.getD_some]
      exact h.creation hes
    · cases hq
  · rw [hcreateIds _ (by exact fun _ => rfl)]
    refine List.nodup_append.mpr ⟨nodup_keys _, hl.nodup, ?_⟩
    intro a ha b hb hab
    exact ((hl.open_iff a).mp (mem_keys.mp ha)).2 (hab ▸ hb)
  · intro id
    rw [hcreateIds _ (by exact fun _ => rfl), List.mem_append, mem_keys, hl.open_iff]
    have hnew : contains (fnToBeCreated (ns.fns d) ur) id = true ↔
        contains ur.fnDeltas id = true ∧ contains (ns.fns d) id = false := by
      rw [contains_fnToBeCreated]
      exact ⟨fun hn => ⟨h.new_delta hn.1, hn.2⟩, fun hn => ⟨h.delta_new hn.1 hn.2, hn.2⟩⟩
    rw [← hnew]
    constructor
    · rintro (hid | hid)
      · exact hid.1
      · exact hl.target_open id hid
    · intro hid
      by_cases ht : id ∈ lists.fnUpdateCopy.map FNEntriesUpdate.targetId ++
          lists.fnUpdateMove.map FNEntriesUpdate.targetId
      · exact Or.inr ht
      · exact Or.inl ⟨hid, ht⟩
  · refine List.nodup_append.mpr ⟨hl.moved_nodup, nodup_keys _, ?_⟩
    intro a ha b hb hab
    exact ((hl.deleted_iff b).mp (mem_keys.mp hb)).2 (hab ▸ ha)
  · intro id
    rw [List.mem_append, mem_keys, hl.deleted_iff, ← hdel.deleted id]
    constructor
    · rintro (hid | hid)
      · exact hl.moved_deleted id hid
      · exact hid.1
    · intro hid
      by_cases hm : id ∈ lists.fnUpdateMove.map FNEntriesUpdate.sourceId
      · exact Or.inl hm
      · exact Or.inr ⟨hid, hm⟩

end UpdatePlan

end Hypertrie
