import Hypertrie.NodeUpdate
import Hypertrie.PlanSpec

/-! Executing a plan at one depth. Each operation takes one node from what is
pending; the reference counts end up at what was requested, and the requests
for the children at the change in the number of edges that lead to them. -/

namespace Hypertrie

open UnorderedMap

variable {M : Type → Type → Type} [UnorderedMap M] {K V : Type}
variable [DecidableEq K] [DecidableEq V] [Inhabited K]
variable {t : HypertrieTrait K V} {F : Nat → Finset (SingleEntry K V) → Prop}
variable {ns : NodeStorage M K V} {d : Nat} {ur : UpdateRequests M K V} {plan : UpdatePlan M K V}

/-- The stored full nodes of one depth hold the sets of their identifiers. -/
def FnsOk (t : HypertrieTrait K V) (F : Nat → Finset (SingleEntry K V) → Prop) (d : Nat)
    (fns : M RawIdentifier (FullNode M K V)) : Prop :=
  ∀ id n, find fns id = some n → ∃ S, F d S ∧ 2 ≤ S.card ∧ id = t.ident d S ∧ n.Represents t d S

section Frame

/-- Below depth `d` nothing has changed yet. -/
def SameBelow (d : Nat) (ns ns' : NodeStorage M K V) : Prop :=
  ∀ d' < d, ns'.fns d' = ns.fns d' ∧ ns'.sens d' = ns.sens d'

variable {ns' : NodeStorage M K V} {d' : Nat}

omit [DecidableEq K] [DecidableEq V] in
theorem Stored.congr {S : Finset (SingleEntry K V)} (h : Stored t ns d S)
    (hs : SameBelow (d + 1) ns ns') : Stored t ns' d S := by
  obtain ⟨hf, he⟩ := hs d (by omega)
  exact ⟨by rw [hf]; exact h.fn, by rw [he]; exact h.sen⟩

theorem NodesOk.congr (h : NodesOk t F ns d) (hs : SameBelow (d + 1) ns ns') :
    NodesOk t F ns' d := by
  obtain ⟨hf, he⟩ := hs d (by omega)
  exact ⟨by rw [hf]; exact h.fn, by rw [he]; exact h.sen⟩

theorem ChildrenStored.congr (h : ChildrenStored t F ns d) (hs : SameBelow (d + 1) ns ns') :
    ChildrenStored t F ns' d := by
  intro hd S hS hc hst pos hp k
  rw [(hs d (by omega)).1] at hst
  exact (h hd S hS hc hst pos hp k).congr fun d' hd' => hs d' (by omega)

theorem ChildrenAt.congr {pos : Nat} {S : Finset (SingleEntry K V)}
    (h : ChildrenAt t F ns d pos S) (hd : 0 < d) (hs : SameBelow d ns ns') :
    ChildrenAt t F ns' d pos S :=
  ⟨h.inPlay, fun k => (h.stored k).congr fun d' hd' => hs d' (by omega)⟩

theorem UpdateRequests.Valid.congr (h : ur.Valid t F ns d) (hs : SameBelow (d + 1) ns ns') :
    ur.Valid t F ns' d := by
  obtain ⟨hf, he⟩ := hs d (by omega)
  refine ⟨h.delta_isFn, h.delta_nonpos, ?_, h.new_delta, ?_, ?_, h.creation, ?_, h.sen_isSen,
    h.sen_entry, ?_⟩
  · rw [hf]
    exact h.candidate_stored
  · rw [hf]
    exact h.delta_new
  · rw [hf]
    exact h.recipe
  · intro sourceId targets targetId data hs' ht
    have hu := h.update hs' ht
    unfold UpdateSound at hu ⊢
    rw [hf]
    exact hu
  · rw [he]
    exact h.sen_new

omit [UnorderedMap M] [DecidableEq K] [DecidableEq V] [Inhabited K] in
theorem SameBelow.symm (h : SameBelow d ns ns') : SameBelow d ns' ns :=
  fun d' hd' => ⟨(h d' hd').1.symm, (h d' hd').2.symm⟩

end Frame

namespace UpdatePlan

/-- The nodes the plan creates. -/
def targets (plan : UpdatePlan M K V) : List RawIdentifier :=
  plan.fnCreate.map FNCreation.id ++ (plan.fnUpdateCopy.map FNEntriesUpdate.targetId ++
    plan.fnUpdateMove.map FNEntriesUpdate.targetId)

/-- The nodes the plan gives up. -/
def removed (plan : UpdatePlan M K V) : List RawIdentifier :=
  plan.fnUpdateMove.map FNEntriesUpdate.sourceId ++ (entries plan.fnDelete).map Prod.fst

end UpdatePlan

section FullNodes

/-- The full nodes while the plan is executed. -/
structure FnProgress (t : HypertrieTrait K V) (F : Nat → Finset (SingleEntry K V) → Prop)
    (ns : NodeStorage M K V) (d : Nat) (plan : UpdatePlan M K V) (creating removing : List RawIdentifier)
    (fns : M RawIdentifier (FullNode M K V)) (done : M RawIdentifier Unit) : Prop where
  pending : ∀ id ∈ creating, find fns id = none
  created : ∀ id ∈ plan.targets, id ∉ creating → contains done id = true ∧
    ∃ n δ, find fns id = some n ∧ find plan.fnDeltas id = some δ ∧ (n.refCount : Int) = δ
  gone : ∀ id ∈ plan.removed, id ∉ removing → find fns id = none
  kept : ∀ id, id ∉ plan.targets → (id ∈ plan.removed → id ∈ removing) →
    find fns id = find (ns.fns d) id
  done_only : ∀ id, contains done id = true → id ∈ plan.targets ∨ id ∈ plan.removed
  fnsOk : FnsOk t F d fns

theorem FnProgress.erase {creating removing : List RawIdentifier} {src : RawIdentifier}
    {fns : M RawIdentifier (FullNode M K V)} {done : M RawIdentifier Unit}
    (h : FnProgress t F ns d plan creating (src :: removing) fns done)
    (hmem : src ∈ plan.removed) (hdisj : src ∉ plan.targets) (hsrc : src ∉ removing) :
    FnProgress t F ns d plan creating removing (UnorderedMap.erase fns src) done := by
  refine ⟨?_, ?_, ?_, ?_, h.done_only, ?_⟩
  · intro id hid
    rw [find_erase]
    split
    · rfl
    · exact h.pending id hid
  · intro id hid hnot
    have hne : id ≠ src := fun he => hdisj (he ▸ hid)
    rw [find_erase_ne _ hne]
    exact h.created id hid hnot
  · intro id hid hnot
    rw [find_erase]
    split
    next => rfl
    next hne => exact h.gone id hid fun hm => (List.mem_cons.mp hm).elim hne hnot
  · intro id hid hrem
    have hne : id ≠ src := fun he => hsrc (he ▸ hrem (he ▸ hmem))
    rw [find_erase_ne _ hne]
    exact h.kept id hid fun hr => List.mem_cons_of_mem _ (hrem hr)
  · intro id n hn
    rw [find_erase] at hn
    split at hn
    · cases hn
    · exact h.fnsOk id n hn

theorem FnProgress.assign {creating removing : List RawIdentifier} {tgt : RawIdentifier}
    {fns : M RawIdentifier (FullNode M K V)} {done : M RawIdentifier Unit} {n : FullNode M K V}
    {δ : Int} {T : Finset (SingleEntry K V)}
    (h : FnProgress t F ns d plan (tgt :: creating) removing fns done)
    (hmem : tgt ∈ plan.targets) (hnc : tgt ∉ creating) (hnr : tgt ∉ plan.removed)
    (hδ : find plan.fnDeltas tgt = some δ) (hn : (n.refCount : Int) = δ)
    (hT : F d T) (hc : 2 ≤ T.card) (hid : tgt = t.ident d T) (hrep : n.Represents t d T) :
    FnProgress t F ns d plan creating removing (UnorderedMap.assign fns tgt n)
      (UnorderedMap.assign done tgt ()) := by
  refine ⟨?_, ?_, ?_, ?_, ?_, ?_⟩
  · intro id hid
    have hne : id ≠ tgt := fun he => hnc (he ▸ hid)
    rw [find_assign_ne _ _ hne]
    exact h.pending id (List.mem_cons_of_mem _ hid)
  · intro id hid hnot
    rw [contains_assign, find_assign]
    by_cases he : id = tgt
    · subst he
      rw [if_pos rfl]
      exact ⟨Or.inl rfl, n, δ, rfl, hδ, hn⟩
    · rw [if_neg he]
      obtain ⟨hd, hrest⟩ := h.created id hid fun hm => (List.mem_cons.mp hm).elim he hnot
      exact ⟨Or.inr hd, hrest⟩
  · intro id hid hnot
    have hne : id ≠ tgt := fun he => hnr (he ▸ hid)
    rw [find_assign_ne _ _ hne]
    exact h.gone id hid hnot
  · intro id hid hrem
    have hne : id ≠ tgt := fun he => hid (he ▸ hmem)
    rw [find_assign_ne _ _ hne]
    exact h.kept id hid hrem
  · intro id hdone
    rcases (contains_assign _ _ _ _).mp hdone with rfl | hdone
    · exact Or.inl hmem
    · exact h.done_only id hdone
  · intro id n' hn'
    rw [find_assign] at hn'
    split at hn'
    next he =>
      rw [Option.some.injEq] at hn'
      rw [he, ← hn']
      exact ⟨T, hT, hc, hid, hrep⟩
    next => exact h.fnsOk id n' hn'

theorem FnProgress.markDone {creating removing : List RawIdentifier} {src : RawIdentifier}
    {fns : M RawIdentifier (FullNode M K V)} {done : M RawIdentifier Unit}
    (h : FnProgress t F ns d plan creating removing fns done) (hmem : src ∈ plan.removed) :
    FnProgress t F ns d plan creating removing fns (UnorderedMap.assign done src ()) := by
  refine ⟨h.pending, ?_, h.gone, h.kept, ?_, h.fnsOk⟩
  · intro id hid hnot
    obtain ⟨hd, hrest⟩ := h.created id hid hnot
    exact ⟨(contains_assign _ _ _ _).mpr (Or.inr hd), hrest⟩
  · intro id hdone
    rcases (contains_assign _ _ _ _).mp hdone with rfl | hdone
    · exact Or.inr hmem
    · exact h.done_only id hdone

omit [DecidableEq K] [DecidableEq V] [Inhabited K] in
theorem edgesTo_assign {fns : M RawIdentifier (FullNode M K V)} {id : RawIdentifier}
    (h : find fns id = none) (n : FullNode M K V) (c : RawIdentifier) :
    NodeStorage.edgesTo d (assign fns id n) c = n.edgesTo d c + NodeStorage.edgesTo d fns c := by
  unfold NodeStorage.edgesTo
  rw [total_assign, total_erase_of_none _ h]

omit [DecidableEq K] [DecidableEq V] [Inhabited K] in
theorem edgesTo_erase {fns : M RawIdentifier (FullNode M K V)} {id : RawIdentifier}
    {n : FullNode M K V} (h : find fns id = some n) (c : RawIdentifier) :
    NodeStorage.edgesTo d fns c = n.edgesTo d c + NodeStorage.edgesTo d (erase fns id) c := by
  unfold NodeStorage.edgesTo
  rw [total_of_find _ h]

end FullNodes

section Operations

/-- The state while the plan is executed: the requests for the children account for the edges. -/
structure DepthProgress (t : HypertrieTrait K V) (F : Nat → Finset (SingleEntry K V) → Prop)
    (ns : NodeStorage M K V) (d : Nat) (plan : UpdatePlan M K V) (creating removing : List RawIdentifier)
    (st : ApplyUpdate M K V) : Prop where
  fns : FnProgress t F ns d plan creating removing (st.nodeStorage.fns d) st.doneFns
  below : SameBelow d ns st.nodeStorage
  otherFns : ∀ d' ≠ d, st.nodeStorage.fns d' = ns.fns d'
  sens : st.nodeStorage.sens = ns.sens
  valid : st.childUpdateRequests.Valid t F ns (d - 1)
  delta : ∀ c, Tracked t (d - 1) c → st.childUpdateRequests.delta t c =
    (NodeStorage.edgesTo d (st.nodeStorage.fns d) c : Int) - NodeStorage.edgesTo d (ns.fns d) c

/-- What executing the plan relies on. -/
structure DepthReady (t : HypertrieTrait K V) (F : Nat → Finset (SingleEntry K V) → Prop)
    (ns : NodeStorage M K V) (d : Nat) (ur : UpdateRequests M K V) : Prop where
  inPlay : InPlay t F
  pos : 0 < d
  nodes : ∀ d' ≤ d, NodesOk t F ns d' ∧ ChildrenStored t F ns d'
  valid : ur.Valid t F ns d
  fn_pos : ∀ id n, find (ns.fns d) id = some n → 0 < n.refCount
  fn_balance : ∀ id n, find (ns.fns d) id = some n → 0 ≤ (n.refCount : Int) + ur.delta t id
  sen_pos : ∀ id n, find (ns.sens d) id = some n → 0 < n.refCount
  sen_balance : ∀ id n, find (ns.sens d) id = some n → 0 ≤ (n.refCount : Int) + ur.delta t id

theorem DepthReady.target (hr : DepthReady t F ns d ur) (hp : plan.Planned t F ns d ur)
    {id : RawIdentifier} (hid : id ∈ plan.targets) : find (ns.fns d) id = none ∧
      ∃ δ, find plan.fnDeltas id = some δ ∧ 0 < δ := by
  obtain ⟨hd, hnew⟩ := (hp.targets_iff id).mp hid
  obtain ⟨δ, hδ⟩ := contains_iff.mp hd
  have hnone := contains_eq_false_iff.mp hnew
  have hpos : 0 < δ := by
    by_contra hle
    have hst := hr.valid.candidate_stored (hr.valid.delta_nonpos hδ (by omega))
    rw [hnew] at hst
    cases hst
  refine ⟨hnone, δ, (hp.deltas id δ).mpr ⟨hδ, by omega, ?_⟩, hpos⟩
  rintro ⟨n, -, hn, -⟩
  rw [hnone] at hn
  cases hn

theorem DepthReady.not_removed (hr : DepthReady t F ns d ur) (hp : plan.Planned t F ns d ur)
    {id : RawIdentifier} (hid : id ∈ plan.targets) : id ∉ plan.removed := by
  intro hrem
  obtain ⟨n, -, hn, -⟩ := (hp.removed_iff id).mp hrem
  rw [(hr.target hp hid).1] at hn
  cases hn

theorem DepthReady.childrenAt (hr : DepthReady t F ns d ur) {S : Finset (SingleEntry K V)}
    (hS : F d S) (hc : 2 ≤ S.card) (hst : contains (ns.fns d) (t.ident d S) = true) {pos : Nat}
    (hd : 1 < d) (hp : pos < d) : ChildrenAt t F ns d pos S :=
  childrenAt_of_stored hr.inPlay hS hc hd (hr.nodes d le_rfl).2 hst hp

/-- A node that was made from the stored ones joins them. -/
theorem storeNew_spec (hr : DepthReady t F ns d ur) (hp : plan.Planned t F ns d ur)
    {creating removing : List RawIdentifier} {tgt : RawIdentifier} {st : ApplyUpdate M K V}
    {fns : M RawIdentifier (FullNode M K V)} {node : FullNode M K V} {ur' : UpdateRequests M K V}
    {T : Finset (SingleEntry K V)}
    (hfns : FnProgress t F ns d plan (tgt :: creating) removing fns st.doneFns)
    (hbelow : SameBelow d ns st.nodeStorage)
    (hother : ∀ d' ≠ d, st.nodeStorage.fns d' = ns.fns d') (hsens : st.nodeStorage.sens = ns.sens)
    (hv : ur'.Valid t F ns (d - 1))
    (hdelta : ∀ c, Tracked t (d - 1) c → ur'.delta t c =
      (node.edgesTo d c : Int) + NodeStorage.edgesTo d fns c - NodeStorage.edgesTo d (ns.fns d) c)
    (hmem : tgt ∈ plan.targets) (hnc : tgt ∉ creating) (hT : F d T) (hc : 2 ≤ T.card)
    (hid : tgt = t.ident d T) (hrep : node.Represents t d T) :
    Ensures (ApplyUpdate.storeNew d plan st tgt fns node ur')
      (DepthProgress t F ns d plan creating removing) := by
  obtain ⟨hnone, δ, hδ, hδpos⟩ := hr.target hp hmem
  have hrep' : ({ node with refCount := δ.toNat } : FullNode M K V).Represents t d T :=
    ⟨hrep.size, hrep.values, hrep.edges⟩
  have hn : (({ node with refCount := δ.toNat } : FullNode M K V).refCount : Int) = δ := by
    show (δ.toNat : Int) = δ
    omega
  have hfns' := hfns.assign hmem hnc (hr.not_removed hp hmem) hδ hn hT hc hid hrep'
  unfold ApplyUpdate.storeNew
  rw [hδ]
  refine Ensures.pure ⟨?_, ?_, ?_, hsens, hv, fun c hct => ?_⟩
  · simpa [NodeStorage.setFns] using hfns'
  · intro d' hd'
    have hne : d' ≠ d := by omega
    refine ⟨?_, (hbelow d' hd').2⟩
    simpa [NodeStorage.setFns, hne] using (hbelow d' hd').1
  · intro d' hd'
    simpa [NodeStorage.setFns, hd'] using hother d' hd'
  · have hfree : find fns tgt = none := hfns.pending tgt List.mem_cons_self
    have he := edgesTo_assign (d := d) hfree { node with refCount := δ.toNat } c
    have hsame : ({ node with refCount := δ.toNat } : FullNode M K V).edgesTo d c =
        node.edgesTo d c := rfl
    rw [hsame] at he
    have h := hdelta c hct
    simp only [NodeStorage.setFns, Function.update_self]
    rw [he]
    push_cast
    exact h

theorem createFn_spec (hr : DepthReady t F ns d ur) (hp : plan.Planned t F ns d ur)
    {creating removing : List RawIdentifier} {creation : FNCreation K V} {st : ApplyUpdate M K V}
    (h : DepthProgress t F ns d plan (creation.id :: creating) removing st)
    (hmem : creation ∈ plan.fnCreate) (hnc : creation.id ∉ creating) :
    Ensures (ApplyUpdate.createFn t d plan st creation)
      (DepthProgress t F ns d plan creating removing) := by
  obtain ⟨hT, hc, hn, hid⟩ := hp.create creation hmem
  have hmt : creation.id ∈ plan.targets :=
    List.mem_append_left _ (List.mem_map_of_mem hmem)
  have hd := hr.pos
  have hbelow : SameBelow (d - 1 + 1) ns st.nodeStorage := by
    rw [show d - 1 + 1 = d by omega]
    exact h.below
  have hins := applyFnEntryInsertion_spec (S := ∅) hr.inPlay
    (fun h1 => (hr.nodes (d - 1) (by omega)).1.congr hbelow) .justCreated (h.valid.congr hbelow) hd hn
    (Finset.disjoint_empty_left _) (fun _ _ _ => childrenAt_empty)
    (by rwa [Finset.empty_union]) (by rwa [Finset.empty_union]) (fun _ => rfl) represents_new
  rw [Finset.empty_union] at hins
  unfold ApplyUpdate.createFn
  refine Ensures.bind hins fun acc hacc => ?_
  refine storeNew_spec hr hp h.fns h.below h.otherFns h.sens (hacc.valid.congr hbelow.symm)
    (fun c hct => ?_) hmt hnc hT hc hid hacc.represents
  have h1 := hacc.delta c hct
  have h2 := h.delta c hct
  simp only [reduceCtorEq, decide_false, Bool.false_eq_true, if_false] at h1
  omega

/-- The entries of an update lead from the source to the target. -/
theorem applyFnEntries_spec (hr : DepthReady t F ns d ur) {update : FNEntriesUpdate K V}
    {ns' : NodeStorage M K V} (origin : NodeOrigin) {node : FullNode M K V}
    {ur' : UpdateRequests M K V} {S T : Finset (SingleEntry K V)} (hbelow : SameBelow d ns ns')
    (ho : origin ≠ .justCreated) (hv : ur'.Valid t F ns (d - 1)) (hS : F d S) (hT : F d T)
    (hcS : 2 ≤ S.card) (hcT : 2 ≤ T.card) (hst : contains (ns.fns d) (t.ident d S) = true)
    (hn : update.entries.Nodup) (hfits : UpdateFits S T update.entries update.mode)
    (hrep : node.Represents t d S) :
    Ensures (ApplyUpdate.applyFnEntries t ns' d update origin node ur')
      (NodeUpdated t F ns d T (origin = .moved) (node, ur')) := by
  have hd := hr.pos
  have hb : SameBelow (d - 1 + 1) ns ns' := by
    rw [show d - 1 + 1 = d by omega]
    exact hbelow
  have hch : 1 < d → ∀ pos < d, ChildrenAt t F ns' d pos S := fun hd1 pos hp =>
    (hr.childrenAt hS hcS hst hd1 hp).congr hd hbelow
  have hback : ∀ res, NodeUpdated t F ns' d T (origin = .moved) (node, ur') res →
      NodeUpdated t F ns d T (origin = .moved) (node, ur') res := fun res hres =>
    ⟨hres.represents, hres.valid.congr hb.symm, hres.delta⟩
  unfold ApplyUpdate.applyFnEntries
  unfold UpdateFits at hfits
  cases hm : update.mode with
  | insert =>
    rw [hm] at hfits
    obtain ⟨hdisj, rfl⟩ := hfits
    exact (applyFnEntryInsertion_spec hr.inPlay
      (fun h1 => (hr.nodes (d - 1) (by omega)).1.congr hb) origin (hv.congr hb) hd hn hdisj hch hT hcT
      (fun h => absurd h ho) hrep).mono hback
  | erase =>
    rw [hm] at hfits
    obtain ⟨hsub, rfl⟩ := hfits
    exact (applyFnEntryErasure_spec hr.inPlay (fun d' hd' =>
        ⟨(hr.nodes d' (by omega)).1.congr fun d'' h'' => hbelow d'' (by omega),
          (hr.nodes d' (by omega)).2.congr fun d'' h'' => hbelow d'' (by omega)⟩) ho (hv.congr hb)
      hd hn hsub hS hch hT hcT hrep).mono hback

theorem copyUpdateFnToFn_spec (hr : DepthReady t F ns d ur) (hp : plan.Planned t F ns d ur)
    {creating : List RawIdentifier} {update : FNEntriesUpdate K V} {st : ApplyUpdate M K V}
    (h : DepthProgress t F ns d plan (update.targetId :: creating) plan.removed st)
    (hmem : update ∈ plan.fnUpdateCopy) (hnc : update.targetId ∉ creating) :
    Ensures (ApplyUpdate.copyUpdateFnToFn t d plan st update)
      (DepthProgress t F ns d plan creating plan.removed) := by
  obtain ⟨hst, hn, S, T, hS, hT, hcS, hcT, hsrc, htgt, hfits⟩ :=
    hp.update update (List.mem_append_left _ hmem)
  have hmt : update.targetId ∈ plan.targets :=
    List.mem_append_right _ (List.mem_append_left _ (List.mem_map_of_mem hmem))
  obtain ⟨node, hnode⟩ := contains_iff.mp hst
  have hnt : update.sourceId ∉ plan.targets := by
    intro hm
    rw [(hr.target hp hm).1] at hnode
    cases hnode
  have hsource : find (st.nodeStorage.fns d) update.sourceId = some node := by
    rw [h.fns.kept _ hnt fun hm => hm, hnode]
  rw [hsrc] at hst hnode
  have hrep := (hr.nodes d le_rfl).1.represents hr.inPlay hS hnode
  have happ := applyFnEntries_spec hr .copied h.below (by decide) h.valid hS hT hcS hcT
    hst hn hfits hrep
  unfold ApplyUpdate.copyUpdateFnToFn
  rw [hsource]
  simp only [Option.bind_eq_bind, Option.bind_some]
  refine Ensures.bind happ fun acc hacc => ?_
  refine storeNew_spec hr hp h.fns h.below h.otherFns h.sens hacc.valid (fun c hct => ?_) hmt hnc
    hT hcT htgt hacc.represents
  have h1 := hacc.delta c hct
  have h2 := h.delta c hct
  simp only [reduceCtorEq, decide_false, Bool.false_eq_true, if_false] at h1
  omega

theorem moveUpdateFnToFn_spec (hr : DepthReady t F ns d ur) (hp : plan.Planned t F ns d ur)
    {creating removing : List RawIdentifier} {update : FNEntriesUpdate K V} {st : ApplyUpdate M K V}
    (h : DepthProgress t F ns d plan (update.targetId :: creating) (update.sourceId :: removing) st)
    (hmem : update ∈ plan.fnUpdateMove) (hnc : update.targetId ∉ creating)
    (hnr : update.sourceId ∉ removing) :
    Ensures (ApplyUpdate.moveUpdateFnToFn t d plan st update)
      (DepthProgress t F ns d plan creating removing) := by
  obtain ⟨hst, hn, S, T, hS, hT, hcS, hcT, hsrc, htgt, hfits⟩ :=
    hp.update update (List.mem_append_right _ hmem)
  have hmt : update.targetId ∈ plan.targets :=
    List.mem_append_right _ (List.mem_append_right _ (List.mem_map_of_mem hmem))
  have hmr : update.sourceId ∈ plan.removed := List.mem_append_left _ (List.mem_map_of_mem hmem)
  obtain ⟨node, hnode⟩ := contains_iff.mp hst
  have hnt : update.sourceId ∉ plan.targets := fun hm => hr.not_removed hp hm hmr
  have hsource : find (st.nodeStorage.fns d) update.sourceId = some node := by
    rw [h.fns.kept _ hnt fun _ => List.mem_cons_self, hnode]
  have hers := (h.fns.erase hmr hnt hnr).markDone hmr
  rw [hsrc] at hst hnode
  have hrep := (hr.nodes d le_rfl).1.represents hr.inPlay hS hnode
  have happ := applyFnEntries_spec hr .moved h.below (by decide) h.valid hS hT hcS hcT
    hst hn hfits hrep
  unfold ApplyUpdate.moveUpdateFnToFn
  rw [hsource]
  simp only [Option.bind_eq_bind, Option.bind_some]
  refine Ensures.bind happ fun acc hacc => ?_
  refine storeNew_spec hr hp hers h.below h.otherFns h.sens hacc.valid (fun c hct => ?_) hmt hnc
    hT hcT htgt hacc.represents
  have h1 := hacc.delta c hct
  have h2 := h.delta c hct
  have h3 := edgesTo_erase (d := d) hsource c
  simp only [decide_true, if_true] at h1
  omega

theorem deleteFn_spec (hr : DepthReady t F ns d ur) (hp : plan.Planned t F ns d ur)
    {removing : List RawIdentifier} {id : RawIdentifier} {st : ApplyUpdate M K V}
    (h : DepthProgress t F ns d plan [] (id :: removing) st)
    (hmem : id ∈ (entries plan.fnDelete).map Prod.fst) (hnr : id ∉ removing) :
    Ensures (ApplyUpdate.deleteFn t d st id) (DepthProgress t F ns d plan [] removing) := by
  have hmr : id ∈ plan.removed := List.mem_append_right _ hmem
  have hnt : id ∉ plan.targets := fun hm => hr.not_removed hp hm hmr
  obtain ⟨node, -, hnode, -⟩ := (hp.removed_iff id).mp hmr
  have hsource : find (st.nodeStorage.fns d) id = some node := by
    rw [h.fns.kept _ hnt fun _ => List.mem_cons_self, hnode]
  obtain ⟨S, hS, hcS, hid, hrep⟩ := (hr.nodes d le_rfl).1.fn id node hnode
  have hst : contains (ns.fns d) (t.ident d S) = true := by
    rw [← hid]
    exact contains_iff.mpr ⟨node, hnode⟩
  obtain ⟨hv, hd⟩ := releaseChildren_spec hr.inPlay h.valid hr.pos
    (fun hd1 pos hpos => hr.childrenAt hS hcS hst hd1 hpos) hrep
  unfold ApplyUpdate.deleteFn
  rw [hsource]
  refine Ensures.pure ⟨?_, ?_, ?_, h.sens, hv, fun c hct => ?_⟩
  · simpa [NodeStorage.setFns] using h.fns.erase hmr hnt hnr
  · intro d' hd'
    have hne : d' ≠ d := by omega
    refine ⟨?_, (h.below d' hd').2⟩
    simpa [NodeStorage.setFns, hne] using (h.below d' hd').1
  · intro d' hd'
    simpa [NodeStorage.setFns, hd'] using h.otherFns d' hd'
  · have h1 := hd c hct
    have h2 := h.delta c hct
    have h3 := edgesTo_erase (d := d) hsource c
    simp only [NodeStorage.setFns, Function.update_self]
    omega

end Operations

end Hypertrie
