import Hypertrie.RequestInvariant

/-! What each request asks for: the identifier it returns is that of the
requested set, and the reference counts change by the two nodes involved. -/

namespace Hypertrie

open UnorderedMap

variable {M : Type → Type → Type} [UnorderedMap M] {K V : Type}
variable {t : HypertrieTrait K V} {F : Nat → Finset (SingleEntry K V) → Prop}
variable {ns : NodeStorage M K V} {d : Nat} {ur : UpdateRequests M K V}
variable {S T : Finset (SingleEntry K V)} {newEntries : List (SingleEntry K V)}

/-- A node for `T` is requested, and with `release` one for `S` is given back. -/
structure Requested [DecidableEq K] [DecidableEq V] [Inhabited K]
    (t : HypertrieTrait K V) (F : Nat → Finset (SingleEntry K V) → Prop)
    (ns : NodeStorage M K V) (d : Nat) (ur : UpdateRequests M K V)
    (S T : Finset (SingleEntry K V)) (release : Bool)
    (res : RawIdentifier × UpdateRequests M K V) : Prop where
  id : res.1 = t.ident d T
  valid : res.2.Valid t F ns d
  delta : ∀ c, Tracked t d c → res.2.delta t c =
    ur.delta t c + hits (childIdent t d T) c - if release then hits (childIdent t d S) c else 0

theorem ident_singleton_of_not_inPlace [Inhabited K]
    (hp : t.inPlaceNode d = false) (e : SingleEntry K V) :
    t.ident d {e} = t.tagAsSen (t.hashOf {e}) := by
  rw [HypertrieTrait.ident_singleton, HypertrieTrait.encodeSingleEntry_eq,
    HypertrieTrait.entryCode, hp, HypertrieTrait.hashOf, xorSum_singleton,
    HypertrieTrait.tagAsSen_tagAsFn]
  rfl

theorem ident_ne_of_untracked [DecidableEq K] [DecidableEq V] [Inhabited K]
    (hF : InPlay t F) (hT : F d T) (hp : t.inPlaceNode d = true)
    (h1 : T.card = 1) {c : RawIdentifier} (hc : Tracked t d c) : t.ident d T ≠ c := by
  rintro rfl
  rcases hc with hf | hn
  · have := (hF.isFn_ident_iff hT).mp hf
    omega
  · rw [hp] at hn
    cases hn

theorem contains_sens_eq_false [DecidableEq K] [DecidableEq V] [Inhabited K]
    (hok : NodesOk t F ns d) (hp : t.inPlaceNode d = true)
    (id : RawIdentifier) : contains (ns.sens d) id = false := by
  rw [contains_eq_false_iff]
  cases hf : find (ns.sens d) id with
  | none => rfl
  | some n =>
    have := (hok.sen id n hf).1
    rw [hp] at this
    cases this

namespace UpdateRequests

/-! Registering one request commutes with a change of a reference count. -/

theorem hasRecipe_addCreation (id : RawIdentifier) : (ur.addCreation id newEntries).HasRecipe id := by
  refine Or.inl ?_
  unfold addCreation
  rw [contains_iff, find_emplace, if_pos rfl]
  exact ⟨_, rfl⟩

theorem hasRecipe_addUpdate (sourceId targetId : RawIdentifier) (data : FNEntriesUpdateData K V) :
    (ur.addUpdate sourceId targetId data).HasRecipe targetId := by
  unfold addUpdate
  refine Or.inr ⟨sourceId, _, find_assign_self _ _ _, ?_⟩
  rw [contains_iff, find_emplace, if_pos rfl]
  exact ⟨_, rfl⟩

theorem addCreation_applyRefCountDelta (id target : RawIdentifier) (δ : Int) :
    (ur.applyRefCountDelta t d id δ).addCreation target newEntries =
      (ur.addCreation target newEntries).applyRefCountDelta t d id δ := by
  unfold applyRefCountDelta
  split_ifs <;> rfl

theorem addUpdate_applyRefCountDelta (id source target : RawIdentifier) (δ : Int)
    (data : FNEntriesUpdateData K V) :
    (ur.applyRefCountDelta t d id δ).addUpdate source target data =
      (ur.addUpdate source target data).applyRefCountDelta t d id δ := by
  unfold applyRefCountDelta
  split_ifs <;> rfl

theorem addUpdate_addMoveTarget (id source target : RawIdentifier)
    (data : FNEntriesUpdateData K V) :
    (ur.addMoveTarget id).addUpdate source target data =
      (ur.addUpdate source target data).addMoveTarget id := rfl

theorem senChangeFor_applyRefCountDelta {id : RawIdentifier} (δ : Int) (h : t.isFn id = true)
    (sourceId : RawIdentifier) :
    senChangeFor ns d (ur.applyRefCountDelta t d id δ) sourceId = senChangeFor ns d ur sourceId := by
  have hs : (ur.applyRefCountDelta t d id δ).senChanges = ur.senChanges := by
    unfold applyRefCountDelta
    rw [if_pos h]
    split_ifs <;> rfl
  unfold senChangeFor
  rw [hs]

theorem delta_addCreation (id c : RawIdentifier) :
    (ur.addCreation id newEntries).delta t c = ur.delta t c := rfl

theorem delta_addUpdate (source target : RawIdentifier) (data : FNEntriesUpdateData K V)
    (c : RawIdentifier) : (ur.addUpdate source target data).delta t c = ur.delta t c := rfl

theorem delta_addMoveTarget (id c : RawIdentifier) :
    (ur.addMoveTarget id).delta t c = ur.delta t c := rfl

variable [Inhabited K]

theorem addNode_inPlace (hp : t.inPlaceNode d = true) (e : SingleEntry K V) :
    ur.addNode t d [e] = (t.ident d {e}, ur) := by
  simp [addNode, hp, HypertrieTrait.hashIterable, HypertrieTrait.ident_singleton]

theorem addNode_singleton (hp : t.inPlaceNode d = false) (e : SingleEntry K V) :
    ur.addNode t d [e] = (t.ident d {e}, ur.setSenChange (t.ident d {e})
      ⟨(ur.senChange (t.ident d {e})).refCountDelta + 1, some e⟩) := by
  simp [addNode, hp, HypertrieTrait.hashIterable, HypertrieTrait.ident_singleton]

theorem addNode_of_two_le (h : 2 ≤ newEntries.length) :
    ur.addNode t d newEntries = (t.hashIterable d newEntries,
      (ur.addCreation (t.hashIterable d newEntries) newEntries).applyRefCountDelta t d
        (t.hashIterable d newEntries) 1) := by
  match newEntries, h with
  | e :: f :: l, _ => rfl

variable [DecidableEq K] [DecidableEq V]

/-- Changes of nodes that are not stored only ever create them. -/
theorem Valid.senChange_nonneg (h : ur.Valid t F ns d) {id : RawIdentifier}
    (hnew : contains (ns.sens d) id = false) : 0 ≤ (ur.senChange id).refCountDelta := by
  unfold senChange
  cases hc : find ur.senChanges id with
  | none => simp
  | some change =>
    rw [Option.getD_some]
    exact (h.sen_new hc hnew).1

theorem addNode_spec (hF : InPlay t F) (h : ur.Valid t F ns d) (hn : newEntries.Nodup)
    (hT : F d newEntries.toFinset) (hne : newEntries ≠ []) :
    Requested t F ns d ur S newEntries.toFinset false (ur.addNode t d newEntries) := by
  have hchild := childIdent_of_nonempty t d (List.toFinset_nonempty_iff _ |>.mpr hne)
  by_cases h1 : newEntries.length = 1
  · obtain ⟨e, rfl⟩ := List.length_eq_one_iff.mp h1
    have hset : [e].toFinset = {e} := rfl
    rw [hset] at hT hchild ⊢
    cases hp : t.inPlaceNode d with
    | true =>
      rw [addNode_inPlace hp]
      refine ⟨rfl, h, fun c hc => ?_⟩
      have hnc := ident_ne_of_untracked hF hT hp (Finset.card_singleton e) hc
      rw [hchild]
      simp [hits, hnc]
    | false =>
      have hs := HypertrieTrait.isSen_ident_singleton (t := t) (d := d) e
      rw [addNode_singleton hp]
      refine ⟨rfl, h.setSenChange hs ?_ ?_, fun c hc => ?_⟩
      · rintro e' ⟨rfl⟩
        exact ⟨hT, ident_singleton_of_not_inPlace hp e⟩
      · intro hnew
        have := h.senChange_nonneg hnew
        exact ⟨by show 0 ≤ _ + _; omega, rfl⟩
      · rw [hchild, delta_setSenChange hs, hits_some]
        by_cases hce : c = t.ident d {e}
        · rw [if_pos hce, if_pos hce, hce, delta_of_isSen hs]
          simp
        · rw [if_neg hce, if_neg hce]
          simp
  · have hl : 2 ≤ newEntries.length := by
      have := List.length_pos_of_ne_nil hne
      omega
    have hc : 2 ≤ newEntries.toFinset.card := by rwa [List.toFinset_card_of_nodup hn]
    have hid := HypertrieTrait.hashIterable_eq (t := t) (d := d) hn
    have hpos : newEntries.toFinset.Nonempty := Finset.card_pos.mp (by omega)
    rw [addNode_of_two_le hl, hid]
    refine ⟨rfl, ?_, fun c hc => ?_⟩
    · refine (h.addCreation hT hc hn).incr (hF.ident_ne_seed hT hpos) ?_ ?_
      · intro _
        exact Or.inr (hasRecipe_addCreation _)
      · intro hs
        have := HypertrieTrait.isSen_ident_iff.mp hs
        omega
    · rw [delta_applyRefCountDelta 1 hc, delta_addCreation, hchild, hits_some]
      simp

/-- Giving back a stored node. -/
theorem release_spec (hF : InPlay t F) (h : ur.Valid t F ns d) (hS : F d S) (hne : S.Nonempty)
    (hst : Stored t ns d S) (release : Bool) :
    (if release then ur.applyRefCountDelta t d (t.ident d S) (-1) else ur).Valid t F ns d ∧
      ∀ c, Tracked t d c →
        (if release then ur.applyRefCountDelta t d (t.ident d S) (-1) else ur).delta t c =
          ur.delta t c - if release then hits (childIdent t d S) c else 0 := by
  cases release with
  | false => exact ⟨h, fun c hc => by simp⟩
  | true =>
    refine ⟨h.decr (hF.ident_ne_seed hS hne) ?_ ?_, fun c hc => ?_⟩
    · intro hf
      exact hst.fn ((hF.isFn_ident_iff hS).mp hf)
    · intro hs
      exact hst.sen (HypertrieTrait.isSen_ident_iff.mp hs)
    · rw [if_pos rfl, if_pos rfl, delta_applyRefCountDelta (-1) hc,
        childIdent_of_nonempty t d hne, hits_some]
      split <;> omega

/-- The entry of a stored single-entry node is at hand. -/
theorem senChangeFor_spec (hF : InPlay t F) (hok : NodesOk t F ns d) (h : ur.Valid t F ns d)
    {e : SingleEntry K V} (he : F d {e}) (hst : Stored t ns d {e}) (hp : t.inPlaceNode d = false) :
    senChangeFor ns d ur (t.ident d {e}) = some ⟨ur.delta t (t.ident d {e}), some e⟩ := by
  obtain ⟨node, hnode⟩ := contains_iff.mp (hst.sen (Finset.card_singleton e) hp)
  have hentry := hok.sen_entry hF he hnode
  rw [delta_of_isSen (HypertrieTrait.isSen_ident_singleton e)]
  unfold senChangeFor senChange
  cases hc : find ur.senChanges (t.ident d {e}) with
  | none => simp [hnode, hentry]
  | some change =>
    obtain ⟨δ, entry⟩ := change
    cases entry with
    | none => simp [hnode, hentry]
    | some f =>
      obtain ⟨hFf, hid⟩ := h.sen_entry hc rfl
      rw [← ident_singleton_of_not_inPlace hp f] at hid
      have hfe := Finset.singleton_inj.mp (hF.ident_inj he hFf hid)
      simp [hfe]

/-- Insertion into a single-entry node: a node is created from its entry and the new ones. -/
theorem insertIntoNode_sen (hF : InPlay t F) (hok : NodesOk t F ns d) (h : ur.Valid t F ns d)
    {e : SingleEntry K V} (hS : F d {e}) (hst : Stored t ns d {e}) (hn : newEntries.Nodup)
    (hne : newEntries ≠ []) (hdisj : e ∉ newEntries) (hT : F d ({e} ∪ newEntries.toFinset))
    (release : Bool) :
    Ensures (ur.insertIntoNode t ns d (t.ident d {e}) newEntries release)
      (Requested t F ns d ur {e} ({e} ∪ newEntries.toFinset) release) := by
  have hEne : newEntries.toFinset.Nonempty := (List.toFinset_nonempty_iff _).mpr hne
  have hd : Disjoint {e} newEntries.toFinset := by simpa using hdisj
  have hcT : 2 ≤ ({e} ∪ newEntries.toFinset).card := by
    have := hEne.card_pos
    rw [Finset.card_union_of_disjoint hd, Finset.card_singleton]
    omega
  have hTne : ({e} ∪ newEntries.toFinset).Nonempty := Finset.card_pos.mp (by omega)
  have htarget : t.combine d (t.hashIterable d newEntries) (t.ident d {e}) false =
      t.ident d ({e} ∪ newEntries.toFinset) := by
    rw [HypertrieTrait.hashIterable_eq hn]
    exact hF.combine_union hS hT (Finset.singleton_nonempty e) hEne hd
  have hfn : t.isFn (t.ident d ({e} ∪ newEntries.toFinset)) = true := (hF.isFn_ident_iff hT).mpr hcT
  have hs := HypertrieTrait.isSen_ident_singleton (t := t) (d := d) e
  have hlist : (newEntries ++ [e]).toFinset = {e} ∪ newEntries.toFinset := by
    rw [List.toFinset_append, Finset.union_comm]
    rfl
  have hnodup : (newEntries ++ [e]).Nodup := by
    refine List.nodup_append.mpr ⟨hn, List.nodup_singleton e, ?_⟩
    intro a ha b hb hab
    rw [hab, List.mem_singleton.mp hb] at ha
    exact hdisj ha
  have hcreate := h.addCreation (by rw [hlist]; exact hT) (by rw [hlist]; exact hcT) hnodup
  rw [hlist] at hcreate
  have hincr := hcreate.incr (hF.ident_ne_seed hT hTne) (fun _ => Or.inr (hasRecipe_addCreation _))
    (fun hs => by
      rw [isFn_of_isSen hs] at hfn
      cases hfn)
  have hchildT := childIdent_of_nonempty t d hTne
  have hchildS := childIdent_of_nonempty t d (Finset.singleton_nonempty e)
  unfold insertIntoNode
  rw [htarget]
  dsimp only
  rw [if_pos hs]
  cases hp : t.inPlaceNode d with
  | true =>
    rw [if_pos rfl, HypertrieTrait.getEntry_ident_singleton hp (hF.entrySet hS),
      addCreation_applyRefCountDelta]
    refine Ensures.pure ⟨rfl, hincr, fun c hc => ?_⟩
    have hnc := ident_ne_of_untracked hF hS hp (Finset.card_singleton e) hc
    rw [delta_applyRefCountDelta 1 hc, delta_addCreation, hchildT, hchildS, hits_some]
    simp [hits, hnc]
  | false =>
    have hneq : t.ident d {e} ≠ t.ident d ({e} ∪ newEntries.toFinset) := by
      intro heq
      rw [← heq, isFn_of_isSen hs] at hfn
      cases hfn
    rw [senChangeFor_applyRefCountDelta 1 hfn, senChangeFor_spec hF hok h hS hst hp]
    refine Ensures.pure ⟨rfl, ?_, fun c hc => ?_⟩
    · rw [addCreation_applyRefCountDelta]
      refine hincr.setSenChange hs ?_ ?_
      · rintro e' ⟨rfl⟩
        exact ⟨hS, ident_singleton_of_not_inPlace hp e⟩
      · intro hnew
        rw [hst.sen (Finset.card_singleton e) hp] at hnew
        cases hnew
    · rw [delta_setSenChange hs, delta_addCreation, delta_applyRefCountDelta 1 hc, hchildT, hchildS,
        hits_some, hits_some]
      by_cases hce : c = t.ident d {e}
      · rw [hce, if_pos rfl, if_neg hneq, if_pos rfl]
        simp
      · simp [hce]

theorem insertIntoNode_spec (hF : InPlay t F) (hok : NodesOk t F ns d) (h : ur.Valid t F ns d)
    (hS : F d S) (hSne : S.Nonempty) (hst : Stored t ns d S) (hn : newEntries.Nodup)
    (hne : newEntries ≠ []) (hdisj : Disjoint S newEntries.toFinset)
    (hT : F d (S ∪ newEntries.toFinset)) (release : Bool) :
    Ensures (ur.insertIntoNode t ns d (t.ident d S) newEntries release)
      (Requested t F ns d ur S (S ∪ newEntries.toFinset) release) := by
  by_cases h1 : S.card = 1
  · obtain ⟨e, rfl⟩ := Finset.card_eq_one.mp h1
    exact insertIntoNode_sen hF hok h hS hst hn hne (by simpa using hdisj) hT release
  have hEne : newEntries.toFinset.Nonempty := (List.toFinset_nonempty_iff _).mpr hne
  have hcS : 2 ≤ S.card := by
    have := hSne.card_pos
    omega
  have hcT : 2 ≤ (S ∪ newEntries.toFinset).card :=
    hcS.trans (Finset.card_le_card Finset.subset_union_left)
  have hTne : (S ∪ newEntries.toFinset).Nonempty := hSne.mono Finset.subset_union_left
  have htarget : t.combine d (t.hashIterable d newEntries) (t.ident d S) false =
      t.ident d (S ∪ newEntries.toFinset) := by
    rw [HypertrieTrait.hashIterable_eq hn]
    exact hF.combine_union hS hT hSne hEne hdisj
  have hfn : t.isFn (t.ident d (S ∪ newEntries.toFinset)) = true := (hF.isFn_ident_iff hT).mpr hcT
  have hsound : UpdateSound t F ns d (t.ident d S) (t.ident d (S ∪ newEntries.toFinset))
      ⟨newEntries, .insert⟩ :=
    ⟨hst.fn hcS, hn, S, _, hS, hT, hcS, hcT, rfl, rfl, hdisj, rfl⟩
  have hincr := (h.addUpdate hsound).incr (hF.ident_ne_seed hT hTne)
    (fun _ => Or.inr (hasRecipe_addUpdate _ _ _)) (fun hs => by
      rw [isFn_of_isSen hs] at hfn
      cases hfn)
  have hchildT := childIdent_of_nonempty t d hTne
  unfold insertIntoNode
  rw [htarget, if_neg (by rw [HypertrieTrait.isSen_ident_iff]; exact h1)]
  dsimp only
  cases release with
  | false =>
    refine Ensures.pure ⟨rfl, ?_, fun c hc => ?_⟩
    · rw [if_neg Bool.false_ne_true, addUpdate_applyRefCountDelta]
      exact hincr
    · rw [if_neg Bool.false_ne_true, delta_addUpdate, delta_applyRefCountDelta 1 hc, hchildT,
        hits_some]
      simp
  | true =>
    have hrel := release_spec hF (hincr.addMoveTarget (t.ident d (S ∪ newEntries.toFinset))) hS hSne
      hst true
    refine Ensures.pure ⟨rfl, ?_, fun c hc => ?_⟩
    · rw [if_pos rfl, addUpdate_applyRefCountDelta, addUpdate_addMoveTarget,
        addUpdate_applyRefCountDelta]
      exact hrel.1
    · have hd := hrel.2 c hc
      rw [if_pos rfl] at hd ⊢
      rw [addUpdate_applyRefCountDelta, addUpdate_addMoveTarget, addUpdate_applyRefCountDelta, hd,
        delta_addMoveTarget, delta_applyRefCountDelta 1 hc, delta_addUpdate, hchildT, hits_some]

/-- Removal of the entry of a single-entry node. -/
theorem removeFromNode_sen (hF : InPlay t F) (h : ur.Valid t F ns d) {e : SingleEntry K V}
    (hS : F d {e}) (hst : Stored t ns d {e}) (release : Bool) :
    Ensures (ur.removeFromNode t ns d (t.ident d {e}) [e] release)
      (Requested t F ns d ur {e} ∅ release) := by
  have hs := HypertrieTrait.isSen_ident_singleton (t := t) (d := d) e
  have hchild := childIdent_of_nonempty t d (Finset.singleton_nonempty e)
  unfold removeFromNode
  rw [if_pos hs]
  cases hp : t.inPlaceNode d with
  | true =>
    refine Ensures.pure ⟨HypertrieTrait.ident_empty.symm, h, fun c hc => ?_⟩
    have hnc := ident_ne_of_untracked hF hS hp (Finset.card_singleton e) hc
    rw [hchild]
    simp [hits, hnc]
  | false =>
    refine Ensures.pure ⟨HypertrieTrait.ident_empty.symm, h.setSenChange hs ?_ ?_, fun c hc => ?_⟩
    · rintro e' ⟨rfl⟩
      exact ⟨hS, ident_singleton_of_not_inPlace hp e⟩
    · intro hnew
      rw [hst.sen (Finset.card_singleton e) hp] at hnew
      cases hnew
    · rw [delta_setSenChange hs, hchild, hits_some, childIdent_empty, hits_none]
      by_cases hce : c = t.ident d {e}
      · rw [hce, if_pos rfl, if_pos rfl, delta_of_isSen hs]
        show _ - _ = _
        omega
      · simp [hce]

/-- The changes registered under the hash of one entry are about that entry. -/
theorem Valid.entry_eq (hF : InPlay t F) (h : ur.Valid t F ns d) {e f : SingleEntry K V}
    {change : SENChange K V} (he : F d {e})
    (hc : find ur.senChanges (t.tagAsSen (t.hashOf {e})) = some change)
    (hf : change.entry = some f) : f = e := by
  obtain ⟨hFf, hid⟩ := h.sen_entry hc hf
  have hh := HypertrieTrait.tagAsSen_inj hid
  simp only [HypertrieTrait.hashOf, HypertrieTrait.tagAsFn_tagAsFn] at hh
  exact Finset.singleton_inj.mp (hF.hash_inj hFf he hh.symm)

/-- One entry remains: its node is referenced, and created if need be. -/
theorem removeFromNode_one (hF : InPlay t F)
    (hok : ∀ d' ≤ d, NodesOk t F ns d' ∧ ChildrenStored t F ns d') (hd : 0 < d)
    (h : ur.Valid t F ns d) {removed : List (SingleEntry K V)} {e : SingleEntry K V}
    (hS : F d S) (hcS : 2 ≤ S.card) (hst : Stored t ns d S) (hn : removed.Nodup)
    (hsub : removed.toFinset ⊆ S) (hT : S \ removed.toFinset = {e}) (hFe : F d {e}) :
    Ensures (ur.removeFromNode t ns d (t.ident d S) removed false)
      (Requested t F ns d ur S {e} false) := by
  obtain ⟨node, hnode⟩ := contains_iff.mp (hst.fn hcS)
  have hrep := (hok d le_rfl).1.represents hF hS hnode
  have hne : removed ≠ [] := by
    rintro rfl
    rw [List.toFinset_nil, Finset.sdiff_empty] at hT
    rw [hT] at hcS
    simp at hcS
  have hRne : removed.toFinset.Nonempty := (List.toFinset_nonempty_iff _).mpr hne
  have htarget : t.combine d (t.hashIterable d removed) (t.ident d S) false = t.hashOf {e} := by
    rw [HypertrieTrait.hashIterable_eq hn, hF.combine_sdiff hS hcS hsub, hT]
  have hnotempty : RawIdentifier.isEmpty (t.hashOf {e}) = false := by
    have := hF.hash_ne_seed hFe (Finset.singleton_nonempty e)
    simpa [RawIdentifier.isEmpty] using this
  have hsize : node.size d - removed.length = 1 := by
    have h1 := Finset.card_sdiff_of_subset hsub
    have h2 := List.toFinset_card_of_nodup hn
    rw [hT, Finset.card_singleton] at h1
    rw [hrep.size]
    omega
  have hretrieve := retrieveRemainingSingleEntry_spec hF hok hS hcS hd hnode hsub hT
  have hnsen : ¬ t.isSen (t.ident d S) = true := by
    rw [HypertrieTrait.isSen_ident_iff]
    omega
  have hchild := childIdent_of_nonempty t d (Finset.singleton_nonempty e)
  unfold removeFromNode
  rw [if_neg hnsen, htarget]
  dsimp only
  rw [if_neg Bool.false_ne_true, if_neg (by rw [hnotempty]; exact Bool.false_ne_true), hnode]
  simp only [Option.bind_eq_bind, Option.bind_some]
  rw [if_pos hsize]
  cases hp : t.inPlaceNode d with
  | true =>
    rw [if_pos rfl]
    have hnone : ∀ c, Tracked t d c → hits (childIdent t d {e}) c = 0 := by
      intro c hc
      have hnc := ident_ne_of_untracked hF hFe hp (Finset.card_singleton e) hc
      rw [hchild]
      simp [hits, hnc]
    cases hc : find ur.senChanges (t.tagAsSen (t.hashOf {e})) with
    | some change =>
      have hsome := (h.sen_new hc (contains_sens_eq_false (hok d le_rfl).1 hp _)).2
      obtain ⟨f, hf⟩ := Option.isSome_iff_exists.mp hsome
      have hfe := h.entry_eq hF hFe hc hf
      dsimp only
      rw [hf, Option.bind_some, hfe]
      refine Ensures.pure ⟨HypertrieTrait.ident_singleton e |>.symm, h, fun c hc => ?_⟩
      rw [hnone c hc]
      simp
    | none =>
      dsimp only
      rw [hretrieve, Option.bind_some]
      refine Ensures.pure ⟨HypertrieTrait.ident_singleton e |>.symm,
        h.setSenChange (HypertrieTrait.isSen_tagAsSen _) ?_ ?_, fun c hc => ?_⟩
      · rintro e' ⟨rfl⟩
        exact ⟨hFe, rfl⟩
      · intro _
        exact ⟨le_rfl, rfl⟩
      · have hcf : t.isFn c = true := hc.resolve_right (by simp [hp])
        have hne : c ≠ t.tagAsSen (t.hashOf {e}) := by
          rintro rfl
          simp at hcf
        rw [hnone c hc, delta_setSenChange (HypertrieTrait.isSen_tagAsSen _), if_neg hne]
        simp
  | false =>
    rw [if_neg Bool.false_ne_true]
    have hid := ident_singleton_of_not_inPlace hp e
    have hs := HypertrieTrait.isSen_ident_singleton (t := t) (d := d) e
    have hdelta : ∀ change : SENChange K V,
        change.refCountDelta = ur.delta t (t.ident d {e}) + 1 → ∀ c,
        (ur.setSenChange (t.ident d {e}) change).delta t c = ur.delta t c +
          hits (childIdent t d {e}) c - if false = true then hits (childIdent t d S) c else 0 := by
      intro change hch c
      rw [delta_setSenChange hs, hchild, hits_some, if_neg Bool.false_ne_true]
      by_cases hce : c = t.ident d {e}
      · rw [hce, if_pos rfl, if_pos rfl, hch]
        omega
      · simp [hce]
    have hd0 : ur.delta t _ = (ur.senChange _).refCountDelta := delta_of_isSen hs
    unfold senChange at hd0
    rw [← hid]
    cases hc : find ur.senChanges (t.ident d {e}) with
    | some change =>
      rw [hc, Option.getD_some] at hd0
      refine Ensures.pure ⟨rfl, h.setSenChange hs ?_ ?_, fun c _ => hdelta _ (by rw [hd0]) c⟩
      · intro e' he'
        exact h.sen_entry hc he'
      · intro hnew
        obtain ⟨hge, hsome⟩ := h.sen_new hc hnew
        exact ⟨by show 0 ≤ _ + _; omega, hsome⟩
    | none =>
      rw [hc, Option.getD_none] at hd0
      have hentry : remainingEntry t ns d node removed (t.ident d {e}) = some e := by
        unfold remainingEntry
        cases hf : find (ns.sens d) (t.ident d {e}) with
        | some stored => exact congrArg some ((hok d le_rfl).1.sen_entry hF hFe hf)
        | none => exact hretrieve
      dsimp only
      rw [hentry, Option.bind_some]
      refine Ensures.pure ⟨rfl, h.setSenChange hs ?_ ?_, fun c _ => hdelta _ (by rw [hd0]; rfl) c⟩
      · rintro e' ⟨rfl⟩
        exact ⟨hFe, hid⟩
      · intro _
        exact ⟨Int.one_nonneg, rfl⟩

/-- Two or more entries remain: the full node is made from the one before. -/
theorem removeFromNode_many (hF : InPlay t F) (hok : NodesOk t F ns d) (h : ur.Valid t F ns d)
    {removed : List (SingleEntry K V)} (hS : F d S) (hst : Stored t ns d S) (hn : removed.Nodup)
    (hsub : removed.toFinset ⊆ S) (hT : F d (S \ removed.toFinset))
    (hcT : 2 ≤ (S \ removed.toFinset).card) :
    Ensures (ur.removeFromNode t ns d (t.ident d S) removed false)
      (Requested t F ns d ur S (S \ removed.toFinset) false) := by
  have hcS : 2 ≤ S.card := hcT.trans (Finset.card_le_card Finset.sdiff_subset)
  have hTne : (S \ removed.toFinset).Nonempty := Finset.card_pos.mp (by omega)
  obtain ⟨node, hnode⟩ := contains_iff.mp (hst.fn hcS)
  have hrep := hok.represents hF hS hnode
  have htarget : t.combine d (t.hashIterable d removed) (t.ident d S) false =
      t.ident d (S \ removed.toFinset) := by
    rw [HypertrieTrait.hashIterable_eq hn, hF.combine_sdiff hS hcS hsub,
      HypertrieTrait.ident_of_two_le hcT]
  have hseed := hF.ident_ne_seed hT hTne
  have hnotempty : RawIdentifier.isEmpty (t.ident d (S \ removed.toFinset)) = false := by
    simpa [RawIdentifier.isEmpty] using hseed
  have hfn : t.isFn (t.ident d (S \ removed.toFinset)) = true := (hF.isFn_ident_iff hT).mpr hcT
  have hsize : 1 < node.size d - removed.length := by
    have h1 := Finset.card_sdiff_of_subset hsub
    have h2 := List.toFinset_card_of_nodup hn
    rw [hrep.size]
    omega
  have hnsen : ¬ t.isSen (t.ident d S) = true := by
    rw [HypertrieTrait.isSen_ident_iff]
    omega
  have hsound : UpdateSound t F ns d (t.ident d S) (t.ident d (S \ removed.toFinset))
      ⟨removed, .erase⟩ :=
    ⟨hst.fn hcS, hn, S, _, hS, hT, hcS, hcT, rfl, rfl, hsub, rfl⟩
  have hincr := (h.addUpdate hsound).incr hseed (fun _ => Or.inr (hasRecipe_addUpdate _ _ _))
    (fun hs => by
      rw [isFn_of_isSen hs] at hfn
      cases hfn)
  unfold removeFromNode
  rw [if_neg hnsen, htarget]
  dsimp only
  rw [if_neg Bool.false_ne_true, if_neg (by rw [hnotempty]; exact Bool.false_ne_true), hnode]
  simp only [Option.bind_eq_bind, Option.bind_some]
  rw [if_neg (by omega), if_pos hsize, addUpdate_addMoveTarget, addUpdate_applyRefCountDelta]
  refine Ensures.pure ⟨rfl, hincr.addMoveTarget _, fun c hc => ?_⟩
  rw [delta_addMoveTarget, delta_applyRefCountDelta 1 hc, delta_addUpdate,
    childIdent_of_nonempty t d hTne, hits_some]
  simp

omit [DecidableEq V] in
/-- Releasing the source comes first; what follows does not depend on it. -/
theorem removeFromNode_release (hS : ¬ t.isSen (t.ident d S) = true)
    (removed : List (SingleEntry K V)) (release : Bool) :
    ur.removeFromNode t ns d (t.ident d S) removed release =
      UpdateRequests.removeFromNode t ns d
        (if release then ur.applyRefCountDelta t d (t.ident d S) (-1) else ur) (t.ident d S) removed
        false := by
  unfold removeFromNode
  rw [if_neg hS, if_neg hS]
  rfl

theorem removeFromNode_spec (hF : InPlay t F)
    (hok : ∀ d' ≤ d, NodesOk t F ns d' ∧ ChildrenStored t F ns d') (hd : 0 < d)
    (h : ur.Valid t F ns d) {removed : List (SingleEntry K V)}
    (hS : F d S) (hst : Stored t ns d S) (hn : removed.Nodup)
    (hne : removed ≠ []) (hsub : removed.toFinset ⊆ S)
    (hT : (S \ removed.toFinset).Nonempty → F d (S \ removed.toFinset)) (release : Bool) :
    Ensures (ur.removeFromNode t ns d (t.ident d S) removed release)
      (Requested t F ns d ur S (S \ removed.toFinset) release) := by
  have hRne : removed.toFinset.Nonempty := (List.toFinset_nonempty_iff _).mpr hne
  have hSne : S.Nonempty := hRne.mono hsub
  have hpS := hSne.card_pos
  by_cases h1 : S.card = 1
  · obtain ⟨e, rfl⟩ := Finset.card_eq_one.mp h1
    have hRe : removed.toFinset = {e} := by
      rcases Finset.subset_singleton_iff.mp hsub with h0 | h0
      · exact absurd h0 hRne.ne_empty
      · exact h0
    have hl : removed.length = 1 := by
      rw [← List.toFinset_card_of_nodup hn, hRe, Finset.card_singleton]
    obtain ⟨f, rfl⟩ := List.length_eq_one_iff.mp hl
    have hfe : f = e := Finset.singleton_inj.mp (by simpa using hRe)
    rw [hRe, hfe, Finset.sdiff_self]
    exact removeFromNode_sen hF h hS hst release
  have hcS : 2 ≤ S.card := by omega
  have hnsen : ¬ t.isSen (t.ident d S) = true := by
    rw [HypertrieTrait.isSen_ident_iff]
    exact h1
  obtain ⟨hvalid, hdelta⟩ := release_spec hF h hS hSne hst release
  rw [removeFromNode_release hnsen]
  generalize (if release then ur.applyRefCountDelta t d (t.ident d S) (-1) else ur) = ur' at hvalid hdelta
  have hcompose : ∀ {T res}, Requested t F ns d ur' S T false res →
      Requested t F ns d ur S T release res := by
    intro T res hr
    refine ⟨hr.id, hr.valid, fun c hc => ?_⟩
    have h2 := hdelta c hc
    rw [hr.delta c hc, if_neg Bool.false_ne_true]
    omega
  by_cases h0 : S \ removed.toFinset = ∅
  · have htarget : t.combine d (t.hashIterable d removed) (t.ident d S) false = seed := by
      rw [HypertrieTrait.hashIterable_eq hn, hF.combine_sdiff hS hcS hsub, h0,
        HypertrieTrait.hashOf, xorSum_empty]
      exact HypertrieTrait.tagAsFn_seed
    have hall : ur'.removeFromNode t ns d (t.ident d S) removed false = some (seed, ur') := by
      unfold removeFromNode
      rw [if_neg hnsen, htarget]
      rfl
    rw [hall, h0]
    refine Ensures.pure (hcompose ⟨HypertrieTrait.ident_empty.symm, hvalid, fun c _ => ?_⟩)
    simp
  · have hTne := Finset.nonempty_iff_ne_empty.mpr h0
    have hpT := hTne.card_pos
    by_cases hT1 : (S \ removed.toFinset).card = 1
    · obtain ⟨e, he⟩ := Finset.card_eq_one.mp hT1
      have hFe := hT hTne
      rw [he] at hFe ⊢
      exact (removeFromNode_one hF hok hd hvalid hS hcS hst hn hsub he hFe).mono fun _ => hcompose
    · exact (removeFromNode_many hF (hok d le_rfl).1 hvalid hS hst hn hsub (hT hTne)
        (by omega)).mono fun _ => hcompose

end UpdateRequests

end Hypertrie
