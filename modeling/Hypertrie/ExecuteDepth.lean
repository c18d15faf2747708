import Hypertrie.DepthUpdate
import Hypertrie.Library.Executes

/-! A whole depth: the full nodes are created, copied, moved and deleted, then
the reference counts of the others are changed, then the single-entry nodes.
Each of these steps finds what it relies on. -/

namespace Hypertrie

open UnorderedMap

variable {M : Type → Type → Type} [UnorderedMap M] {K V : Type}
variable {t : HypertrieTrait K V} {F : Nat → Finset (SingleEntry K V) → Prop}
variable {ns : NodeStorage M K V} {d : Nat} {ur : UpdateRequests M K V} {plan : UpdatePlan M K V}

namespace NodeStorage

/-- The reference count of a full node, 0 if it is not stored. -/
def fnRefs (fns : M RawIdentifier (FullNode M K V)) (id : RawIdentifier) : Nat :=
  ((find fns id).map FullNode.refCount).getD 0

def senRefs (sens : M RawIdentifier (SingleEntryNode K V)) (id : RawIdentifier) : Nat :=
  ((find sens id).map SingleEntryNode.refCount).getD 0

/-- The reference count of the node with this identifier. -/
def refCount (t : HypertrieTrait K V) (ns : NodeStorage M K V) (d : Nat) (id : RawIdentifier) : Nat :=
  if t.isFn id then fnRefs (ns.fns d) id else senRefs (ns.sens d) id

theorem fnRefs_of_find {fns : M RawIdentifier (FullNode M K V)} {id : RawIdentifier}
    {n : FullNode M K V} (h : find fns id = some n) : fnRefs fns id = n.refCount := by
  simp [fnRefs, h]

theorem fnRefs_of_none {fns : M RawIdentifier (FullNode M K V)} {id : RawIdentifier}
    (h : find fns id = none) : fnRefs fns id = 0 := by
  simp [fnRefs, h]

theorem senRefs_of_find {sens : M RawIdentifier (SingleEntryNode K V)} {id : RawIdentifier}
    {n : SingleEntryNode K V} (h : find sens id = some n) : senRefs sens id = n.refCount := by
  simp [senRefs, h]

theorem senRefs_of_none {sens : M RawIdentifier (SingleEntryNode K V)} {id : RawIdentifier}
    (h : find sens id = none) : senRefs sens id = 0 := by
  simp [senRefs, h]

end NodeStorage

section Preconditions

variable (d : Nat) (plan : UpdatePlan M K V)

/-- The node is not stored yet, and will have references. -/
structure TargetFree (st : ApplyUpdate M K V) (targetId : RawIdentifier) : Prop where
  absent : contains (st.nodeStorage.fns d) targetId = false
  refCount : ∃ δ, find plan.fnDeltas targetId = some δ ∧ 0 < δ

/-- The node is stored as it was before the depth was executed. -/
structure SourceThere (ns : NodeStorage M K V) (st : ApplyUpdate M K V) (sourceId : RawIdentifier) :
    Prop where
  present : contains (st.nodeStorage.fns d) sourceId = true
  same : find (st.nodeStorage.fns d) sourceId = find (ns.fns d) sourceId

def CreateReady (st : ApplyUpdate M K V) (creation : FNCreation K V) : Prop :=
  TargetFree d plan st creation.id

/-- Of a copy and of a move. -/
def UpdateFnReady (ns : NodeStorage M K V) (st : ApplyUpdate M K V) (update : FNEntriesUpdate K V) :
    Prop :=
  SourceThere d ns st update.sourceId ∧ TargetFree d plan st update.targetId

/-- The count of a node that is not done yet stays positive. -/
def DeltaReady (st : ApplyUpdate M K V) (update : RawIdentifier × Int) : Prop :=
  contains st.doneFns update.1 = false →
    ∃ n, find (st.nodeStorage.fns d) update.1 = some n ∧ 0 < (n.refCount : Int) + update.2

/-- The count of a stored node does not become negative; a node that is not stored is created. -/
def SenReady (sens : M RawIdentifier (SingleEntryNode K V)) (update : RawIdentifier × SENChange K V) :
    Prop :=
  match find sens update.1 with
  | some n => 0 ≤ (n.refCount : Int) + update.2.refCountDelta
  | none => 0 < update.2.refCountDelta ∧ update.2.entry.isSome = true

end Preconditions

variable [DecidableEq K] [DecidableEq V] [Inhabited K]

section Structure

theorem DepthProgress.targetFree (hr : DepthReady t F ns d ur) (hp : plan.Planned t F ns d ur)
    {creating removing : List RawIdentifier} {id : RawIdentifier} {st : ApplyUpdate M K V}
    (h : DepthProgress t F ns d plan (id :: creating) removing st) (hid : id ∈ plan.targets) :
    TargetFree d plan st id :=
  ⟨contains_eq_false_iff.mpr (h.fns.pending id List.mem_cons_self), (hr.target hp hid).2⟩

theorem DepthProgress.sourceThere (hr : DepthReady t F ns d ur) (hp : plan.Planned t F ns d ur)
    {creating removing : List RawIdentifier} {id : RawIdentifier} {st : ApplyUpdate M K V}
    (h : DepthProgress t F ns d plan creating removing st) (hst : contains (ns.fns d) id = true)
    (hid : id ∈ plan.removed → id ∈ removing) : SourceThere d ns st id := by
  have hnt : id ∉ plan.targets := by
    intro hm
    obtain ⟨n, hn⟩ := contains_iff.mp hst
    rw [(hr.target hp hm).1] at hn
    cases hn
  have hkept := h.fns.kept id hnt hid
  exact ⟨by rw [contains, hkept]; exact hst, hkept⟩

theorem UpdatePlan.Planned.source (hp : plan.Planned t F ns d ur) {update : FNEntriesUpdate K V}
    (hm : update ∈ plan.fnUpdateCopy ++ plan.fnUpdateMove) :
    contains (ns.fns d) update.sourceId = true :=
  (hp.update update hm).1

/-- The nodes are created, copied, moved and deleted. -/
theorem executeFns_spec (hr : DepthReady t F ns d ur) (hp : plan.Planned t F ns d ur) :
    ∃ st₁ st₂ st₃ st₄,
      Executes (CreateReady d plan) (ApplyUpdate.createFn t d plan) plan.fnCreate
        ⟨ns, .new, empty⟩ st₁ ∧
      Executes (UpdateFnReady d plan ns) (ApplyUpdate.copyUpdateFnToFn t d plan) plan.fnUpdateCopy
        st₁ st₂ ∧
      Executes (UpdateFnReady d plan ns) (ApplyUpdate.moveUpdateFnToFn t d plan) plan.fnUpdateMove
        st₂ st₃ ∧
      Executes (SourceThere d ns) (ApplyUpdate.deleteFn t d) ((entries plan.fnDelete).map Prod.fst)
        st₃ st₄ ∧
      DepthProgress t F ns d plan [] [] st₄ := by
  have htn := hp.targets_nodup
  have hrn := hp.removed_nodup
  have hcn := (List.nodup_append.mp htn).2.1
  have hmn := (List.nodup_append.mp hcn).2.1
  have hstart : DepthProgress t F ns d plan plan.targets plan.removed ⟨ns, .new, empty⟩ := by
    refine ⟨⟨fun id hid => (hr.target hp hid).1, fun id hid hn => absurd hid hn,
      fun id hid hn => absurd hid hn, fun id _ _ => rfl, fun id hd => ?_, (hr.nodes d le_rfl).1.fn⟩,
      fun d' _ => ⟨rfl, rfl⟩, fun d' _ => rfl, rfl, UpdateRequests.Valid.new, fun c _ => ?_⟩
    · simp [contains] at hd
    · simp
  obtain ⟨st₁, hcreate, h₁⟩ := Executes.of_pending (p := CreateReady d plan)
    (f := ApplyUpdate.createFn t d plan) (g := FNCreation.id)
    (I := fun rest st => DepthProgress t F ns d plan rest plan.removed st)
    (plan.fnUpdateCopy.map FNEntriesUpdate.targetId ++
      plan.fnUpdateMove.map FNEntriesUpdate.targetId) htn hstart
    fun c hc rest st hnot h =>
      ⟨h.targetFree hr hp (List.mem_append_left _ (List.mem_map_of_mem hc)),
        createFn_spec hr hp h hc hnot⟩
  obtain ⟨st₂, hcopy, h₂⟩ := Executes.of_pending (p := UpdateFnReady d plan ns)
    (f := ApplyUpdate.copyUpdateFnToFn t d plan) (g := FNEntriesUpdate.targetId)
    (I := fun rest st => DepthProgress t F ns d plan rest plan.removed st)
    (plan.fnUpdateMove.map FNEntriesUpdate.targetId) hcn h₁
    fun u hu rest st hnot h =>
      ⟨⟨h.sourceThere hr hp (hp.source (List.mem_append_left _ hu)) fun hm => hm,
        h.targetFree hr hp
          (List.mem_append_right _ (List.mem_append_left _ (List.mem_map_of_mem hu)))⟩,
        copyUpdateFnToFn_spec hr hp h hu hnot⟩
  obtain ⟨st₃, hmove, h₃⟩ := Executes.of_invariant (p := UpdateFnReady d plan ns)
    (f := ApplyUpdate.moveUpdateFnToFn t d plan)
    (I := fun rest st => (∀ u ∈ rest, u ∈ plan.fnUpdateMove) ∧
      (rest.map FNEntriesUpdate.targetId).Nodup ∧
      (rest.map FNEntriesUpdate.sourceId ++ (entries plan.fnDelete).map Prod.fst).Nodup ∧
      DepthProgress t F ns d plan (rest.map FNEntriesUpdate.targetId)
        (rest.map FNEntriesUpdate.sourceId ++ (entries plan.fnDelete).map Prod.fst) st)
    (l := plan.fnUpdateMove) (s := st₂) ⟨fun _ hu => hu, hmn, hrn, h₂⟩ (by
      rintro u rest st ⟨hmem, hnt, hns, h⟩
      obtain ⟨htgt, hnt⟩ := List.nodup_cons.mp hnt
      obtain ⟨hsrc, hns⟩ := List.nodup_cons.mp hns
      have hu := hmem u List.mem_cons_self
      have hstep := moveUpdateFnToFn_spec hr hp h hu htgt hsrc
      refine ⟨⟨?_, ?_⟩, hstep.mono fun st' h' =>
        ⟨fun v hv => hmem v (List.mem_cons_of_mem _ hv), hnt, hns, h'⟩⟩
      · exact h.sourceThere hr hp (hp.source (List.mem_append_right _ hu))
          fun _ => List.mem_cons_self
      · exact h.targetFree hr hp
          (List.mem_append_right _ (List.mem_append_right _ (List.mem_map_of_mem hu))))
  have hdn := (List.nodup_append.mp hrn).2.1
  obtain ⟨st₄, hdelete, h₄⟩ := Executes.of_pending (p := SourceThere d ns)
    (f := ApplyUpdate.deleteFn t d) (g := id)
    (I := fun rest st => DepthProgress t F ns d plan [] rest st)
    (l := (entries plan.fnDelete).map Prod.fst) (s := st₃) []
    (by rw [List.map_id, List.append_nil]; exact hdn)
    (by rw [List.map_id, List.append_nil]; exact h₃.2.2.2)
    fun del hdel rest st hnot h => by
      obtain ⟨n, -, hn, -⟩ := (hp.removed_iff del).mp (List.mem_append_right _ hdel)
      exact ⟨h.sourceThere hr hp (contains_iff.mpr ⟨n, hn⟩) fun _ => List.mem_cons_self,
        deleteFn_spec hr hp h hdel hnot⟩
  exact ⟨st₁, st₂, st₃, st₄, hcreate, hcopy, hmove, hdelete, h₄⟩

end Structure

section RefCounts

theorem addRefCount_of_nonneg {refCount : Nat} {δ : Int} (h : 0 ≤ (refCount : Int) + δ) :
    addRefCount refCount δ = some ((refCount : Int) + δ).toNat := by
  simp [addRefCount, h]

/-- The full nodes while the reference counts are changed: those that are not done and not pending
have the count they are to have. -/
structure RefProgress (t : HypertrieTrait K V) (F : Nat → Finset (SingleEntry K V) → Prop) (d : Nat)
    (fnDeltas : M RawIdentifier Int) (st₀ : ApplyUpdate M K V) (pending : List RawIdentifier)
    (st : ApplyUpdate M K V) : Prop where
  same : ∀ id, (id ∈ pending ∨ contains st₀.doneFns id = true ∨ find fnDeltas id = none) →
    find (st.nodeStorage.fns d) id = find (st₀.nodeStorage.fns d) id
  changed : ∀ id δ, find fnDeltas id = some δ → id ∉ pending → contains st₀.doneFns id = false →
    ∃ n n', find (st₀.nodeStorage.fns d) id = some n ∧ find (st.nodeStorage.fns d) id = some n' ∧
      (n'.refCount : Int) = n.refCount + δ
  done : ∀ id ∈ pending, contains st.doneFns id = contains st₀.doneFns id
  fnsOk : FnsOk t F d (st.nodeStorage.fns d)
  edges : ∀ c, NodeStorage.edgesTo d (st.nodeStorage.fns d) c =
    NodeStorage.edgesTo d (st₀.nodeStorage.fns d) c
  otherFns : ∀ d' ≠ d, st.nodeStorage.fns d' = st₀.nodeStorage.fns d'
  sens : st.nodeStorage.sens = st₀.nodeStorage.sens
  requests : st.childUpdateRequests = st₀.childUpdateRequests

theorem applyFnDelta_spec {fnDeltas : M RawIdentifier Int} {st₀ st : ApplyUpdate M K V}
    {pending : List RawIdentifier} {update : RawIdentifier × Int}
    (h : RefProgress t F d fnDeltas st₀ (update.1 :: pending) st)
    (hδ : find fnDeltas update.1 = some update.2) (hnot : update.1 ∉ pending)
    (hst : contains st₀.doneFns update.1 = false → ∃ n,
      find (st₀.nodeStorage.fns d) update.1 = some n ∧ 0 ≤ (n.refCount : Int) + update.2) :
    Ensures (ApplyUpdate.applyFnDelta d st update) (RefProgress t F d fnDeltas st₀ pending) := by
  unfold ApplyUpdate.applyFnDelta
  rw [h.done _ List.mem_cons_self]
  cases hdone : contains st₀.doneFns update.1 with
  | true =>
    rw [if_pos rfl]
    refine Ensures.pure ⟨?_, ?_, fun id hid => h.done id (List.mem_cons_of_mem _ hid), h.fnsOk,
      h.edges, h.otherFns, h.sens, h.requests⟩
    · intro id hid
      exact h.same id (hid.imp_left (List.mem_cons_of_mem _))
    · intro id δ hd hid hnd
      have hne : id ≠ update.1 := by
        intro he
        rw [he, hdone] at hnd
        cases hnd
      exact h.changed id δ hd (fun hm => (List.mem_cons.mp hm).elim hne hid) hnd
  | false =>
    obtain ⟨n, hn, hpos⟩ := hst hdone
    have hsame : find (st.nodeStorage.fns d) update.1 = some n :=
      (h.same _ (Or.inl List.mem_cons_self)).trans hn
    rw [if_neg Bool.false_ne_true, hsame]
    simp only [Option.bind_eq_bind, Option.bind_some, addRefCount_of_nonneg hpos]
    refine Ensures.pure ⟨?_, ?_, ?_, ?_, ?_, ?_, h.sens, h.requests⟩
    · intro id hid
      simp only [NodeStorage.setFns, Function.update_self]
      have hne : id ≠ update.1 := by
        rintro rfl
        rcases hid with hm | hd | hd
        · exact hnot hm
        · rw [hdone] at hd
          cases hd
        · rw [hδ] at hd
          cases hd
      rw [find_assign_ne _ _ hne]
      exact h.same id (hid.imp_left (List.mem_cons_of_mem _))
    · intro id δ hd hid hnd
      simp only [NodeStorage.setFns, Function.update_self]
      by_cases he : id = update.1
      · subst he
        rw [hδ, Option.some.injEq] at hd
        rw [find_assign_self]
        refine ⟨n, _, hn, rfl, ?_⟩
        show (((n.refCount : Int) + update.2).toNat : Int) = n.refCount + δ
        omega
      · rw [find_assign_ne _ _ he]
        exact h.changed id δ hd (fun hm => (List.mem_cons.mp hm).elim he hid) hnd
    · intro id hid
      have hne : id ≠ update.1 := fun he => hnot (he ▸ hid)
      show contains (assign st.doneFns update.1 ()) id = contains st₀.doneFns id
      rw [contains, find_assign_ne _ _ hne]
      exact h.done id (List.mem_cons_of_mem _ hid)
    · intro id n' hn'
      simp only [NodeStorage.setFns, Function.update_self] at hn'
      rw [find_assign] at hn'
      split at hn'
      next he =>
        obtain ⟨S, hS, hc, hid, hrep⟩ := h.fnsOk _ n hsame
        rw [Option.some.injEq] at hn'
        rw [← hn']
        exact ⟨S, hS, hc, he.trans hid, ⟨hrep.size, hrep.values, hrep.edges⟩⟩
      next => exact h.fnsOk id n' hn'
    · intro c
      rw [← h.edges c, edgesTo_erase hsame c]
      simp only [NodeStorage.setFns, Function.update_self]
      unfold NodeStorage.edgesTo
      rw [total_assign]
      rfl
    · intro d' hd'
      simpa [NodeStorage.setFns, hd'] using h.otherFns d' hd'

/-- The full nodes of a depth after the plan: their counts changed as requested. -/
structure FnsExecuted (t : HypertrieTrait K V) (F : Nat → Finset (SingleEntry K V) → Prop)
    (ns : NodeStorage M K V) (d : Nat) (ur : UpdateRequests M K V) (st : ApplyUpdate M K V) :
    Prop where
  fnsOk : FnsOk t F d (st.nodeStorage.fns d)
  refs : ∀ id, (NodeStorage.fnRefs (st.nodeStorage.fns d) id : Int) =
    NodeStorage.fnRefs (ns.fns d) id + (find ur.fnDeltas id).getD 0
  pos : ∀ id n, find (st.nodeStorage.fns d) id = some n → 0 < n.refCount
  otherFns : ∀ d' ≠ d, st.nodeStorage.fns d' = ns.fns d'
  sens : st.nodeStorage.sens = ns.sens
  valid : st.childUpdateRequests.Valid t F ns (d - 1)
  delta : ∀ c, Tracked t (d - 1) c → st.childUpdateRequests.delta t c =
    (NodeStorage.edgesTo d (st.nodeStorage.fns d) c : Int) - NodeStorage.edgesTo d (ns.fns d) c

theorem DepthReady.fnDelta_eq (hr : DepthReady t F ns d ur) {id : RawIdentifier}
    {n : FullNode M K V} (hn : find (ns.fns d) id = some n) :
    ur.delta t id = (find ur.fnDeltas id).getD 0 := by
  obtain ⟨S, hS, hc, hid, -⟩ := (hr.nodes d le_rfl).1.fn id n hn
  have hf : t.isFn id = true := by
    rw [hid, hr.inPlay.isFn_ident_iff hS]
    exact hc
  simp [UpdateRequests.delta, hf]

/-- What the count of a node is to be, by the part it has in the plan. -/
theorem DepthReady.fnsExecuted (hr : DepthReady t F ns d ur) (hp : plan.Planned t F ns d ur)
    {st₀ st : ApplyUpdate M K V} (h₀ : DepthProgress t F ns d plan [] [] st₀)
    (h : RefProgress t F d plan.fnDeltas st₀ [] st) : FnsExecuted t F ns d ur st := by
  have hsettled : ∀ id, (NodeStorage.fnRefs (st.nodeStorage.fns d) id : Int) =
      NodeStorage.fnRefs (ns.fns d) id + (find ur.fnDeltas id).getD 0 ∧
      ∀ n, find (st.nodeStorage.fns d) id = some n → 0 < n.refCount := by
    intro id
    by_cases htgt : id ∈ plan.targets
    · -- created: the count is the delta
      obtain ⟨hnone, δ, hδ, hpos⟩ := hr.target hp htgt
      obtain ⟨hdone, n, δ', hn, hδ', hcount⟩ := h₀.fns.created id htgt (by simp)
      have hfind := (h.same id (Or.inr (Or.inl hdone))).trans hn
      have hur := ((hp.deltas id δ).mp hδ).1
      rw [hδ, Option.some.injEq] at hδ'
      rw [NodeStorage.fnRefs_of_find hfind, NodeStorage.fnRefs_of_none hnone, hur, hcount, hδ']
      refine ⟨by simp, fun n' hn' => ?_⟩
      rw [hfind, Option.some.injEq] at hn'
      rw [← hn']
      omega
    by_cases hrem : id ∈ plan.removed
    · -- given up: nothing refers to it
      have hunref := (hp.removed_iff id).mp hrem
      obtain ⟨n, δ, hn, hδ, hz⟩ := hunref
      have hnone : find plan.fnDeltas id = none := by
        cases hd : find plan.fnDeltas id with
        | none => rfl
        | some δ' => exact absurd ((hp.removed_iff id).mp hrem) ((hp.deltas id δ').mp hd).2.2
      have hgone := (h.same id (Or.inr (Or.inr hnone))).trans (h₀.fns.gone id hrem (by simp))
      rw [NodeStorage.fnRefs_of_none hgone, NodeStorage.fnRefs_of_find hn, hδ]
      refine ⟨by simpa using hz.symm, fun n' hn' => ?_⟩
      rw [hgone] at hn'
      cases hn'
    · -- kept: the count changes by the delta
      have hkept := h₀.fns.kept id htgt fun hm => absurd hm hrem
      have hnd : contains st₀.doneFns id = false := by
        cases hd : contains st₀.doneFns id with
        | false => rfl
        | true => exact ((h₀.fns.done_only id hd).elim htgt hrem).elim
      cases hd : find plan.fnDeltas id with
      | some δ =>
        obtain ⟨n, n', hn, hn', hcount⟩ := h.changed id δ hd (by simp) hnd
        have hur := ((hp.deltas id δ).mp hd).1
        rw [hkept] at hn
        have hbal := hr.fn_balance id n hn
        rw [hr.fnDelta_eq hn, hur, Option.getD_some] at hbal
        have hne : (n.refCount : Int) + δ ≠ 0 := fun hz =>
          ((hp.deltas id δ).mp hd).2.2 ⟨n, δ, hn, hur, hz⟩
        rw [NodeStorage.fnRefs_of_find hn', NodeStorage.fnRefs_of_find hn, hur]
        refine ⟨by simpa using hcount, fun n'' hn'' => ?_⟩
        rw [hn', Option.some.injEq] at hn''
        rw [← hn'']
        omega
      | none =>
        have hfind := (h.same id (Or.inr (Or.inr hd))).trans hkept
        have hz : (find ur.fnDeltas id).getD 0 = 0 := by
          by_contra hne
          cases hur : find ur.fnDeltas id with
          | none => simp [hur] at hne
          | some δ =>
            rw [hur, Option.getD_some] at hne
            have hnot := fun hu => hrem ((hp.removed_iff id).mpr hu)
            rw [(hp.deltas id δ).mpr ⟨hur, hne, hnot⟩] at hd
            cases hd
        rw [NodeStorage.fnRefs, hfind, hz]
        exact ⟨by simp [NodeStorage.fnRefs], fun n hn => hr.fn_pos id n hn⟩
  refine ⟨h.fnsOk, fun id => (hsettled id).1, fun id => (hsettled id).2, ?_, ?_, ?_, ?_⟩
  · intro d' hd'
    exact (h.otherFns d' hd').trans (h₀.otherFns d' hd')
  · exact h.sens.trans h₀.sens
  · rw [h.requests]
    exact h₀.valid
  · intro c hc
    rw [h.requests, h.edges]
    exact h₀.delta c hc

/-- A delta is left only for a node that keeps references. -/
theorem DepthProgress.delta_pos (hr : DepthReady t F ns d ur) (hp : plan.Planned t F ns d ur)
    {st₀ : ApplyUpdate M K V} (h₀ : DepthProgress t F ns d plan [] [] st₀) {id : RawIdentifier} {δ : Int}
    (hδ : find plan.fnDeltas id = some δ) (hnd : contains st₀.doneFns id = false) :
    ∃ n, find (st₀.nodeStorage.fns d) id = some n ∧ 0 < (n.refCount : Int) + δ := by
  obtain ⟨hur, hne, href⟩ := (hp.deltas _ _).mp hδ
  have htgt : id ∉ plan.targets := by
    intro hm
    obtain ⟨hdone, -⟩ := h₀.fns.created id hm (by simp)
    rw [hnd] at hdone
    cases hdone
  have hrem : id ∉ plan.removed := fun hm => href ((hp.removed_iff _).mp hm)
  have hst : contains (ns.fns d) id = true := by
    cases hc : contains (ns.fns d) id with
    | true => rfl
    | false => exact absurd ((hp.targets_iff _).mpr ⟨contains_iff.mpr ⟨_, hur⟩, hc⟩) htgt
  obtain ⟨n, hn⟩ := contains_iff.mp hst
  have hbal := hr.fn_balance _ n hn
  rw [hr.fnDelta_eq hn, hur, Option.getD_some] at hbal
  have hnz : (n.refCount : Int) + δ ≠ 0 := fun hz => href ⟨n, δ, hn, hur, hz⟩
  exact ⟨n, (h₀.fns.kept _ htgt fun hm => absurd hm hrem).trans hn, by omega⟩

theorem applyFnDeltas_spec (hr : DepthReady t F ns d ur) (hp : plan.Planned t F ns d ur)
    {st₀ : ApplyUpdate M K V} (h₀ : DepthProgress t F ns d plan [] [] st₀) :
    ∃ st, Executes (DeltaReady d) (ApplyUpdate.applyFnDelta d) (entries plan.fnDeltas) st₀ st ∧
      FnsExecuted t F ns d ur st := by
  have hloop := Executes.of_pending (p := DeltaReady d) (f := ApplyUpdate.applyFnDelta d)
    (g := Prod.fst) (I := RefProgress t F d plan.fnDeltas st₀) (l := entries plan.fnDeltas) (s := st₀)
    [] (by simpa using nodup_keys plan.fnDeltas) (by
      refine ⟨fun _ _ => rfl, ?_, fun _ _ => rfl, h₀.fns.fnsOk, fun _ => rfl, fun _ _ => rfl, rfl,
        rfl⟩
      intro id δ hδ hnot
      rw [List.append_nil, mem_keys, contains_iff] at hnot
      exact absurd ⟨δ, hδ⟩ hnot) (by
      intro update hmem rest st hnot h
      have hδ := (mem_entries _ _ _).mp hmem
      have hpos := fun hnd => h₀.delta_pos hr hp hδ hnd
      refine ⟨fun hnd => ?_, applyFnDelta_spec h hδ hnot fun hnd => ?_⟩
      · rw [h.done _ List.mem_cons_self] at hnd
        obtain ⟨n, hn, hle⟩ := hpos hnd
        exact ⟨n, (h.same _ (Or.inl List.mem_cons_self)).trans hn, hle⟩
      · obtain ⟨n, hn, hle⟩ := hpos hnd
        exact ⟨n, hn, hle.le⟩)
  obtain ⟨st, hst, h⟩ := hloop
  exact ⟨st, hst, hr.fnsExecuted hp h₀ h⟩

end RefCounts

section SingleEntryNodes

/-- The single-entry nodes while their counts are changed. -/
structure SenProgress (t : HypertrieTrait K V) (F : Nat → Finset (SingleEntry K V) → Prop)
    (ns : NodeStorage M K V) (d : Nat) (ur : UpdateRequests M K V) (pending : List RawIdentifier)
    (sens : M RawIdentifier (SingleEntryNode K V)) : Prop where
  same : ∀ id ∈ pending, find sens id = find (ns.sens d) id
  refs : ∀ id ∉ pending, (NodeStorage.senRefs sens id : Int) =
    NodeStorage.senRefs (ns.sens d) id + (ur.senChange id).refCountDelta
  pos : ∀ id n, find sens id = some n → 0 < n.refCount
  ok : ∀ id n, find sens id = some n →
    t.inPlaceNode d = false ∧ F d {n.entry} ∧ id = t.ident d {n.entry}

omit [DecidableEq K] [DecidableEq V] in
theorem SenProgress.update {pending : List RawIdentifier} {id : RawIdentifier}
    {sens sens' : M RawIdentifier (SingleEntryNode K V)}
    (h : SenProgress t F ns d ur (id :: pending) sens) (found : Option (SingleEntryNode K V))
    (hnot : id ∉ pending)
    (hf : ∀ id', find sens' id' = if id' = id then found else find sens id')
    (hrefs : ((found.map SingleEntryNode.refCount).getD 0 : Int) =
      NodeStorage.senRefs (ns.sens d) id + (ur.senChange id).refCountDelta)
    (hok : ∀ n, found = some n → 0 < n.refCount ∧
      t.inPlaceNode d = false ∧ F d {n.entry} ∧ id = t.ident d {n.entry}) :
    SenProgress t F ns d ur pending sens' := by
  refine ⟨?_, ?_, ?_, ?_⟩
  · intro id' hid'
    have hne : id' ≠ id := fun he => hnot (he ▸ hid')
    rw [hf, if_neg hne]
    exact h.same id' (List.mem_cons_of_mem _ hid')
  · intro id' hid'
    unfold NodeStorage.senRefs at hrefs ⊢
    rw [hf]
    by_cases he : id' = id
    · subst he
      rw [if_pos rfl]
      exact_mod_cast hrefs
    · rw [if_neg he]
      exact h.refs id' fun hm => (List.mem_cons.mp hm).elim he hid'
  · intro id' n hn
    rw [hf] at hn
    split at hn
    · exact (hok n hn).1
    · exact h.pos id' n hn
  · intro id' n hn
    rw [hf] at hn
    split at hn
    next he =>
      rw [he]
      exact (hok n hn).2
    next => exact h.ok id' n hn

theorem applySenUpdate_spec (hr : DepthReady t F ns d ur) (hplace : t.inPlaceNode d = false)
    {pending : List RawIdentifier} {update : RawIdentifier × SENChange K V}
    {sens : M RawIdentifier (SingleEntryNode K V)}
    (h : SenProgress t F ns d ur (update.1 :: pending) sens) (hnot : update.1 ∉ pending)
    (hc : find ur.senChanges update.1 = some update.2) (hz : update.2.refCountDelta ≠ 0) :
    Ensures (ApplyUpdate.applySenUpdate sens update) (SenProgress t F ns d ur pending) := by
  have hchange : ur.senChange update.1 = update.2 := by
    unfold UpdateRequests.senChange
    rw [hc, Option.getD_some]
  have hsame := h.same update.1 List.mem_cons_self
  unfold ApplyUpdate.applySenUpdate
  rw [if_neg hz]
  cases hn : find (ns.sens d) update.1 with
  | some n =>
    have hbal := hr.sen_balance _ n hn
    rw [UpdateRequests.delta_of_isSen (hr.valid.sen_isSen hc), hchange] at hbal
    rw [hn] at hsame
    rw [hsame]
    simp only [Option.bind_eq_bind, Option.bind_some, addRefCount_of_nonneg hbal]
    have hrefs : (NodeStorage.senRefs (ns.sens d) update.1 : Int) = n.refCount := by
      rw [NodeStorage.senRefs_of_find hn]
    split
    next hzero =>
      refine Ensures.pure (h.update none hnot (fun id' => find_erase _ _ _) ?_ ?_)
      · rw [hrefs, hchange]
        simp
        omega
      · intro n' hn'
        cases hn'
    next hnz =>
      refine Ensures.pure (h.update _ hnot (fun id' => find_assign _ _ _ _) ?_ ?_)
      · rw [hrefs, hchange]
        simp
        omega
      · intro n' hn'
        obtain ⟨-, hF, hid⟩ := (hr.nodes d le_rfl).1.sen _ n hn
        rw [Option.some.injEq] at hn'
        rw [← hn']
        exact ⟨Nat.pos_of_ne_zero hnz, hplace, hF, hid⟩
  | none =>
    obtain ⟨hnn, hentry⟩ := hr.valid.sen_new hc (contains_eq_false_iff.mpr hn)
    obtain ⟨e, he⟩ := Option.isSome_iff_exists.mp hentry
    obtain ⟨hF, hid⟩ := hr.valid.sen_entry hc he
    rw [hn] at hsame
    rw [hsame]
    dsimp only
    rw [if_neg (by omega), he]
    refine Ensures.pure (h.update _ hnot (fun id' => find_assign _ _ _ _) ?_ ?_)
    · rw [NodeStorage.senRefs_of_none hn, hchange]
      simp
      omega
    · intro n' hn'
      rw [Option.some.injEq] at hn'
      rw [← hn']
      refine ⟨?_, hplace, hF, ?_⟩
      · show 0 < update.2.refCountDelta.toNat
        omega
      · rw [hid, ident_singleton_of_not_inPlace hplace]

theorem SenProgress.senReady (hr : DepthReady t F ns d ur) {pending : List RawIdentifier}
    {update : RawIdentifier × SENChange K V} {sens : M RawIdentifier (SingleEntryNode K V)}
    (h : SenProgress t F ns d ur (update.1 :: pending) sens)
    (hc : find ur.senChanges update.1 = some update.2) (hz : update.2.refCountDelta ≠ 0) :
    SenReady sens update := by
  have hchange : ur.senChange update.1 = update.2 := by
    rw [UpdateRequests.senChange, hc, Option.getD_some]
  rw [SenReady, h.same update.1 List.mem_cons_self]
  cases hn : find (ns.sens d) update.1 with
  | some n =>
    have hbal := hr.sen_balance _ n hn
    rwa [UpdateRequests.delta_of_isSen (hr.valid.sen_isSen hc), hchange] at hbal
  | none =>
    obtain ⟨hnn, hentry⟩ := hr.valid.sen_new hc (contains_eq_false_iff.mpr hn)
    exact ⟨by omega, hentry⟩

/-- In-place entries have no nodes. -/
def senUpdates (t : HypertrieTrait K V) (d : Nat) (senChanges : M RawIdentifier (SENChange K V)) :
    List (RawIdentifier × SENChange K V) :=
  if t.inPlaceNode d then [] else entries senChanges

omit [DecidableEq K] [DecidableEq V] [Inhabited K] in
theorem applySenUpdates_eq (senChanges : M RawIdentifier (SENChange K V))
    (sens : M RawIdentifier (SingleEntryNode K V)) :
    ApplyUpdate.applySenUpdates t d senChanges sens =
      (senUpdates t d senChanges).foldlM ApplyUpdate.applySenUpdate sens := by
  rw [ApplyUpdate.applySenUpdates, senUpdates]
  split <;> rfl

theorem applySenUpdates_spec (hr : DepthReady t F ns d ur) (hp : plan.Planned t F ns d ur) :
    ∃ sens, Executes SenReady ApplyUpdate.applySenUpdate (senUpdates t d plan.senChanges) (ns.sens d)
        sens ∧
      (t.inPlaceNode d = false → ∀ id, (NodeStorage.senRefs sens id : Int) =
        NodeStorage.senRefs (ns.sens d) id + (ur.senChange id).refCountDelta) ∧
      (∀ id n, find sens id = some n → 0 < n.refCount) ∧
      ∀ id n, find sens id = some n →
        t.inPlaceNode d = false ∧ F d {n.entry} ∧ id = t.ident d {n.entry} := by
  rw [senUpdates]
  by_cases hplace : t.inPlaceNode d = true
  · rw [if_pos hplace]
    refine ⟨_, .nil _, fun h => ?_, hr.sen_pos, (hr.nodes d le_rfl).1.sen⟩
    rw [hplace] at h
    cases h
  · rw [if_neg hplace]
    have hplace : t.inPlaceNode d = false := by simpa using hplace
    obtain ⟨sens, hloop, h⟩ := Executes.of_pending (p := SenReady)
      (f := ApplyUpdate.applySenUpdate) (g := Prod.fst)
      (I := SenProgress t F ns d ur) (l := entries plan.senChanges) (s := ns.sens d) []
      (by simpa using nodup_keys plan.senChanges) (by
        refine ⟨fun _ _ => rfl, ?_, hr.sen_pos, (hr.nodes d le_rfl).1.sen⟩
        intro id hnot
        rw [List.append_nil, mem_keys] at hnot
        have hz : (ur.senChange id).refCountDelta = 0 := by
          unfold UpdateRequests.senChange
          cases hc : find ur.senChanges id with
          | none => rfl
          | some change =>
            by_contra hne
            exact hnot (contains_iff.mpr ⟨change, (hp.sens id change).mpr ⟨hc, hne⟩⟩)
        rw [hz, add_zero]) (by
        intro update hmem rest sens hnot h
        obtain ⟨hc, hz⟩ := (hp.sens _ _).mp ((mem_entries _ _ _).mp hmem)
        exact ⟨h.senReady hr hc hz, applySenUpdate_spec hr hplace h hnot hc hz⟩)
    exact ⟨sens, hloop, fun _ id => h.refs id (by simp), h.pos, h.ok⟩

end SingleEntryNodes

/-- What executing the requests for one depth does to the storage. -/
structure DepthExecuted (t : HypertrieTrait K V) (F : Nat → Finset (SingleEntry K V) → Prop)
    (ns : NodeStorage M K V) (d : Nat) (ur : UpdateRequests M K V)
    (res : NodeStorage M K V × UpdateRequests M K V) : Prop where
  otherDepths : ∀ d' ≠ d, res.1.fns d' = ns.fns d' ∧ res.1.sens d' = ns.sens d'
  nodes : NodesOk t F res.1 d
  refs : ∀ id, Tracked t d id →
    (res.1.refCount t d id : Int) = ns.refCount t d id + ur.delta t id
  fn_pos : ∀ id n, find (res.1.fns d) id = some n → 0 < n.refCount
  sen_pos : ∀ id n, find (res.1.sens d) id = some n → 0 < n.refCount
  valid : res.2.Valid t F res.1 (d - 1)
  delta : ∀ c, Tracked t (d - 1) c → res.2.delta t c =
    (NodeStorage.edgesTo d (res.1.fns d) c : Int) - NodeStorage.edgesTo d (ns.fns d) c

/-- The execution of a depth in which nothing is missing, made twice, moved twice, moved and deleted,
or left without references. Made are exactly the requested nodes that are not stored yet. -/
inductive SafeDepth (t : HypertrieTrait K V) (ns : NodeStorage M K V) (d : Nat)
    (ur : UpdateRequests M K V) : NodeStorage M K V × UpdateRequests M K V → Prop where
  | intro {plan : UpdatePlan M K V} {st₁ st₂ st₃ st₄ st : ApplyUpdate M K V}
      {sens : M RawIdentifier (SingleEntryNode K V)} :
      UpdatePlan.ofRequests (ns.fns d) ur = some plan →
      plan.targets.Nodup →
      (∀ id, id ∈ plan.targets ↔ contains ur.fnDeltas id = true ∧ contains (ns.fns d) id = false) →
      plan.removed.Nodup →
      (∀ u ∈ plan.fnUpdateCopy ++ plan.fnUpdateMove, contains (ns.fns d) u.sourceId = true) →
      Executes (CreateReady d plan) (ApplyUpdate.createFn t d plan) plan.fnCreate
        ⟨ns, .new, empty⟩ st₁ →
      Executes (UpdateFnReady d plan ns) (ApplyUpdate.copyUpdateFnToFn t d plan) plan.fnUpdateCopy
        st₁ st₂ →
      Executes (UpdateFnReady d plan ns) (ApplyUpdate.moveUpdateFnToFn t d plan) plan.fnUpdateMove
        st₂ st₃ →
      Executes (SourceThere d ns) (ApplyUpdate.deleteFn t d) ((entries plan.fnDelete).map Prod.fst)
        st₃ st₄ →
      Executes (DeltaReady d) (ApplyUpdate.applyFnDelta d) (entries plan.fnDeltas) st₄ st →
      Executes SenReady ApplyUpdate.applySenUpdate (senUpdates t d plan.senChanges)
        (st.nodeStorage.sens d) sens →
      SafeDepth t ns d ur (st.nodeStorage.setSens d sens, st.childUpdateRequests)

omit [DecidableEq V] in
theorem SafeDepth.executeDepth_eq {res : NodeStorage M K V × UpdateRequests M K V}
    (h : SafeDepth t ns d ur res) : ApplyUpdate.executeDepth t ns d ur = some res := by
  cases h with
  | intro hplan _ _ _ _ hcreate hcopy hmove hdelete hdeltas hsens =>
    simp only [ApplyUpdate.executeDepth, applySenUpdates_eq, hplan, hcreate.foldlM_eq,
      hcopy.foldlM_eq, hmove.foldlM_eq, hdelete.foldlM_eq, hdeltas.foldlM_eq, hsens.foldlM_eq,
      Option.bind_eq_bind, Option.bind_some]

theorem executeDepth_safe (hr : DepthReady t F ns d ur) :
    ∃ res, SafeDepth t ns d ur res ∧ DepthExecuted t F ns d ur res := by
  obtain ⟨plan, hplan, hp⟩ := UpdatePlan.ofRequests_spec hr.valid hr.fn_pos
  obtain ⟨st₁, st₂, st₃, st₀, hcreate, hcopy, hmove, hdelete, h₀⟩ := executeFns_spec hr hp
  obtain ⟨st, hdeltas, h⟩ := applyFnDeltas_spec hr hp h₀
  obtain ⟨sens, hsens, hrefs, hpos, hok⟩ := applySenUpdates_spec hr hp
  rw [← h.sens] at hsens
  refine ⟨_, .intro hplan hp.targets_nodup hp.targets_iff hp.removed_nodup (fun u hu => hp.source hu)
    hcreate hcopy hmove hdelete hdeltas hsens, ?_⟩
  have hother : ∀ d' ≠ d, (st.nodeStorage.setSens d sens).fns d' = ns.fns d' ∧
      (st.nodeStorage.setSens d sens).sens d' = ns.sens d' := by
    intro d' hd'
    refine ⟨h.otherFns d' hd', ?_⟩
    simp [NodeStorage.setSens, hd', h.sens]
  have hsame : SameBelow (d - 1 + 1) ns (st.nodeStorage.setSens d sens) := by
    intro d' hd'
    have := hr.pos
    exact hother d' (by omega)
  refine ⟨hother, ⟨h.fnsOk, ?_⟩, ?_, h.pos, ?_, h.valid.congr hsame, h.delta⟩
  · simpa [NodeStorage.setSens] using hok
  · intro id ht
    unfold NodeStorage.refCount
    cases hf : t.isFn id with
    | true =>
      rw [if_pos rfl, if_pos rfl, UpdateRequests.delta, hf, if_pos rfl]
      exact h.refs id
    | false =>
      have hplace : t.inPlaceNode d = false := ht.resolve_left (by simp [hf])
      rw [if_neg Bool.false_ne_true, if_neg Bool.false_ne_true]
      have hd : ur.delta t id = (ur.senChange id).refCountDelta := by
        unfold UpdateRequests.delta UpdateRequests.senChange
        rw [hf, if_neg Bool.false_ne_true]
        cases find ur.senChanges id with
        | none => rfl
        | some change => rfl
      rw [hd]
      simpa [NodeStorage.setSens] using hrefs hplace id
  · simpa [NodeStorage.setSens] using hpos

end Hypertrie
