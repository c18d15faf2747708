import Hypertrie.Library.AssocMap
import Hypertrie.NodeContext

/-! Inserting and removing entries through a handle of a canonical storage. -/

namespace Hypertrie

open UnorderedMap UpdateRequests

variable {M : Type → Type → Type} [UnorderedMap M] {K V : Type}
variable [DecidableEq K] [DecidableEq V] [Inhabited K]
variable {t : HypertrieTrait K V} {F : Nat → Finset (SingleEntry K V) → Prop}
variable {ns : NodeStorage M K V} {rest : Multiset (Root K V)} {d : Nat}
  {S : Finset (SingleEntry K V)} {entries : List (SingleEntry K V)}

/-- The handles read the same entries from both storages. -/
def SameReads (t : HypertrieTrait K V) (ns ns' : NodeStorage M K V) (roots : Multiset (Root K V)) :
    Prop :=
  ∀ r ∈ roots, ∀ key : List K, key.length = r.depth →
    RawHypertrieContext.get t ns' r.depth (t.ident r.depth r.entries) key =
      RawHypertrieContext.get t ns r.depth (t.ident r.depth r.entries) key

theorem Canonical.readable {roots : Multiset (Root K V)} (h : Canonical t ns roots)
    (hn : NoCollision t roots) : Readable t (Live roots) ns :=
  ⟨hn.inPlay h.rootsOk, h.nodesOk, (h.storageOk hn).childrenStored (hn.inPlay h.rootsOk)⟩

theorem Canonical.stored {roots : Multiset (Root K V)} (h : Canonical t ns roots)
    (hn : NoCollision t roots) {r : Root K V} (hr : r ∈ roots) : Stored t ns r.depth r.entries := by
  rcases r.entries.eq_empty_or_nonempty with h0 | hne
  · rw [h0]
    exact ⟨fun hc => by simp at hc, fun hc => by simp at hc⟩
  · exact (h.storageOk hn).stored_root (hn.inPlay h.rootsOk) (.root hr hne) hne hr

theorem Canonical.get {roots : Multiset (Root K V)} (h : Canonical t ns roots)
    (hn : NoCollision t roots) {r : Root K V} (hr : r ∈ roots) {key : List K}
    (hl : key.length = r.depth) :
    Ensures (RawHypertrieContext.get t ns r.depth (t.ident r.depth r.entries) key)
      (ValueAt t r.entries key) :=
  get_spec (h.readable hn) (h.rootsOk r hr).1 (fun hne => .root hr hne) (h.stored hn hr) hl

theorem Canonical.sameReads {ns' : NodeStorage M K V} {roots roots' shared : Multiset (Root K V)}
    (h : Canonical t ns roots) (h' : Canonical t ns' roots') (hn : NoCollision t roots)
    (hn' : NoCollision t roots') (hs : ∀ r ∈ shared, r ∈ roots) (hs' : ∀ r ∈ shared, r ∈ roots') :
    SameReads t ns ns' shared := by
  intro r hr key hl
  obtain ⟨v, hv, hval⟩ := h.get hn (hs r hr) hl
  obtain ⟨v', hv', hval'⟩ := h'.get hn' (hs' r hr) hl
  rw [hv, hv', hval'.unique (h.rootsOk r (hs r hr)).2 hval]

section Update

/-- The requests for a node of the handle's depth are carried out. -/
theorem execute_requested (hF : InPlay t F) {T : Finset (SingleEntry K V)} (hd : 0 < d)
    (h : StorageOk t F ns (⟨d, S⟩ ::ₘ rest)) (hT : T.Nonempty → F d T)
    {request : Option (RawIdentifier × UpdateRequests M K V)}
    (hreq : Ensures request (Requested t F ns d .new S T true)) :
    Ensures (request.bind fun res => (ApplyUpdate.consumeAndExecute t d ns res.2).bind fun ns' =>
        some (if t.inPlaceNode d then res.1 else ns'.lookup t d res.1, ns'))
      (fun out => out.1 = t.ident d T ∧ StorageOk t F out.2 (⟨d, T⟩ ::ₘ rest)) := by
  refine Ensures.bind hreq fun res hres => ?_
  have hdelta : ∀ c, Tracked t d c →
      res.2.delta t c = hits (childIdent t d T) c - hits (childIdent t d S) c := by
    intro c hc
    rw [hres.delta c hc, delta_new, zero_add, if_pos rfl]
  refine Ensures.bind (h.update hF hd hres.valid hdelta) fun ns' h' => Ensures.pure ⟨?_, h'⟩
  rw [hres.id]
  refine lookup_ident hF hT ?_
  rcases T.eq_empty_or_nonempty with rfl | hne
  · exact ⟨fun hc => by simp at hc, fun hc => by simp at hc⟩
  · exact h'.stored_root hF (hT hne) hne (Multiset.mem_cons_self _ _)

theorem requestInsert_spec (hF : InPlay t F) (h : StorageOk t F ns (⟨d, S⟩ ::ₘ rest))
    (hS : S.Nonempty → F d S) (hn : entries.Nodup) (hne : entries ≠ [])
    (hdisj : Disjoint S entries.toFinset)
    (hT : (S ∪ entries.toFinset).Nonempty → F d (S ∪ entries.toFinset)) :
    Ensures (requestUpdate t .insert d ns (t.ident d S) entries)
      (Requested t F ns d .new S (S ∪ entries.toFinset) true) := by
  have hE : entries.toFinset.Nonempty := (List.toFinset_nonempty_iff _).mpr hne
  have hTne : (S ∪ entries.toFinset).Nonempty := hE.mono Finset.subset_union_right
  rw [requestUpdate]
  rcases S.eq_empty_or_nonempty with rfl | hSne
  · rw [Finset.empty_union] at hT hTne ⊢
    rw [HypertrieTrait.ident_empty, if_pos (by simp [RawIdentifier.isEmpty])]
    have hnew : (UpdateRequests.new : UpdateRequests M K V).Valid t F ns d := Valid.new
    have hadd := addNode_spec (S := ∅) hF hnew hn (hT hTne) hne
    refine Ensures.pure ⟨hadd.id, hadd.valid, fun c hc => ?_⟩
    rw [hadd.delta c hc]
    simp
  · have hseed := hF.ident_ne_seed (hS hSne) hSne
    rw [if_neg (by simpa [RawIdentifier.isEmpty] using hseed)]
    exact insertIntoNode_spec hF (h.nodes d) Valid.new (hS hSne) hSne
      (h.stored_root hF (hS hSne) hSne (Multiset.mem_cons_self _ _)) hn hne hdisj (hT hTne) true

theorem requestErase_spec (hF : InPlay t F) (hd : 0 < d) (h : StorageOk t F ns (⟨d, S⟩ ::ₘ rest))
    (hS : S.Nonempty → F d S) (hn : entries.Nodup) (hne : entries ≠ []) (hsub : entries.toFinset ⊆ S)
    (hT : (S \ entries.toFinset).Nonempty → F d (S \ entries.toFinset)) :
    Ensures (requestUpdate t .erase d ns (t.ident d S) entries)
      (Requested t F ns d .new S (S \ entries.toFinset) true) := by
  have hSne : S.Nonempty := ((List.toFinset_nonempty_iff _).mpr hne).mono hsub
  exact removeFromNode_spec hF (fun d' _ => ⟨h.nodes d', h.childrenStored hF d'⟩) hd Valid.new
    (hS hSne) (h.stored_root hF (hS hSne) hSne (Multiset.mem_cons_self _ _)) hn hne hsub hT true

theorem insert_spec (hF : InPlay t F) (hd : 0 < d) (h : StorageOk t F ns (⟨d, S⟩ ::ₘ rest))
    (hS : S.Nonempty → F d S) (hn : entries.Nodup) (hdisj : Disjoint S entries.toFinset)
    (hT : (S ∪ entries.toFinset).Nonempty → F d (S ∪ entries.toFinset)) :
    Ensures (RawHypertrieContext.insert t ns d (t.ident d S) entries)
      (fun out => out.1 = t.ident d (S ∪ entries.toFinset) ∧
        StorageOk t F out.2 (⟨d, S ∪ entries.toFinset⟩ ::ₘ rest)) := by
  unfold RawHypertrieContext.insert insertEntriesIntoNode applyUpdate
  by_cases hne : entries = []
  · rw [if_pos hne, hne, List.toFinset_nil, Finset.union_empty]
    exact Ensures.pure ⟨rfl, h⟩
  rw [if_neg hne]
  exact execute_requested hF hd h hT (requestInsert_spec hF h hS hn hne hdisj hT)

theorem remove_spec (hF : InPlay t F) (hd : 0 < d) (h : StorageOk t F ns (⟨d, S⟩ ::ₘ rest))
    (hS : S.Nonempty → F d S) (hn : entries.Nodup) (hsub : entries.toFinset ⊆ S)
    (hT : (S \ entries.toFinset).Nonempty → F d (S \ entries.toFinset)) :
    Ensures (RawHypertrieContext.remove t ns d (t.ident d S) entries)
      (fun out => out.1 = t.ident d (S \ entries.toFinset) ∧
        StorageOk t F out.2 (⟨d, S \ entries.toFinset⟩ ::ₘ rest)) := by
  unfold RawHypertrieContext.remove eraseEntriesFromNode applyUpdate
  by_cases hne : entries = []
  · rw [if_pos hne, hne, List.toFinset_nil, Finset.sdiff_empty]
    exact Ensures.pure ⟨rfl, h⟩
  rw [if_neg hne]
  exact execute_requested hF hd h hT (requestErase_spec hF hd h hS hn hne hsub hT)

end Update

section Canonical

/-- An update whose sets before and after are collision-free goes from one canonical storage to
another. -/
theorem Canonical.update {T : Finset (SingleEntry K V)} (hc : Canonical t ns (⟨d, S⟩ ::ₘ rest))
    (prog : Option (RawIdentifier × NodeStorage M K V)) (hn : NoCollision t (⟨d, S⟩ ::ₘ ⟨d, T⟩ ::ₘ rest))
    (hTset : IsEntrySet t d T)
    (hprog : ∀ F, InPlay t F → 0 < d → StorageOk t F ns (⟨d, S⟩ ::ₘ rest) →
      (S.Nonempty → F d S) → (T.Nonempty → F d T) →
      Ensures prog (fun out => out.1 = t.ident d T ∧ StorageOk t F out.2 (⟨d, T⟩ ::ₘ rest))) :
    Ensures prog (fun out => out.1 = t.ident d T ∧ (out.1.isEmpty = true ↔ T = ∅) ∧
      Canonical t out.2 (⟨d, T⟩ ::ₘ rest) ∧ SameReads t ns out.2 rest) := by
  have hd := (hc.rootsOk _ (Multiset.mem_cons_self _ _)).1
  have hold : ∀ r ∈ ⟨d, S⟩ ::ₘ rest, r ∈ ⟨d, S⟩ ::ₘ ⟨d, T⟩ ::ₘ rest := by
    intro r hr
    simp only [Multiset.mem_cons] at hr ⊢
    exact hr.imp_right Or.inr
  have hnew : ∀ r ∈ ⟨d, T⟩ ::ₘ rest, r ∈ ⟨d, S⟩ ::ₘ ⟨d, T⟩ ::ₘ rest := fun r hr =>
    Multiset.mem_cons_of_mem hr
  have hrootsT : RootsOk t (⟨d, T⟩ ::ₘ rest) := by
    intro r hr
    rcases Multiset.mem_cons.mp hr with rfl | hr
    · exact ⟨hd, hTset⟩
    · exact hc.rootsOk r (Multiset.mem_cons_of_mem hr)
  have hroots : RootsOk t (⟨d, S⟩ ::ₘ ⟨d, T⟩ ::ₘ rest) := by
    intro r hr
    rcases Multiset.mem_cons.mp hr with rfl | hr
    · exact hc.rootsOk _ (Multiset.mem_cons_self _ _)
    · exact hrootsT r hr
  have hF := hn.inPlay hroots
  have hstart := (hc.storageOk (hn.mono hold)).mono fun hS => hS.mono hold
  refine (hprog _ hF hd hstart (fun hS => .root (Multiset.mem_cons_self _ _) hS)
    (fun hT => .root (by simp) hT)).mono ?_
  rintro ⟨nodec, ns'⟩ ⟨rfl, hok⟩
  have hlive := hok.live hF fun hS => hS.mono hnew
  have hcan := hlive.canonical (hn.mono hnew) hrootsT
  refine ⟨rfl, ?_, hcan, hc.sameReads hcan (hn.mono hold) (hn.mono hnew)
    (fun r hr => Multiset.mem_cons_of_mem hr) (fun r hr => Multiset.mem_cons_of_mem hr)⟩
  constructor
  · intro he
    by_contra hne
    have hT := Finset.nonempty_of_ne_empty hne
    have hlive : Live (⟨d, S⟩ ::ₘ ⟨d, T⟩ ::ₘ rest) d T := .root (by simp) hT
    exact hF.ident_ne_seed hlive hT (by simpa [RawIdentifier.isEmpty] using he)
  · rintro rfl
    simp [RawIdentifier.isEmpty]

theorem live_cons_empty {roots : Multiset (Root K V)} :
    Live (⟨d, ∅⟩ ::ₘ roots) = Live roots := by
  funext d' S
  apply propext
  constructor
  · intro h
    induction h with
    | root hm hn =>
      rcases Multiset.mem_cons.mp hm with he | hm
      · rw [(Root.mk.inj he).2] at hn
        exact absurd hn Finset.not_nonempty_empty
      · exact .root hm hn
    | child _ hc hp hd hn ih => exact .child ih hc hp hd hn
  · exact fun h => h.mono fun r hr => Multiset.mem_cons_of_mem hr

/-- An empty handle needs no node. -/
theorem Canonical.cons_empty (hd : 0 < d) (h : Canonical t ns rest) :
    Canonical t ns (⟨d, ∅⟩ ::ₘ rest) := by
  have hcount : ∀ d' id, rootCount t (⟨d, ∅⟩ ::ₘ rest) d' id = rootCount t rest d' id := fun d' id =>
    Multiset.countP_cons_of_neg _ fun hn => by simp at hn
  refine ⟨?_, ?_, ?_, ?_, ?_, fun hn => ?_, fun hn => ?_⟩
  · intro r hr
    rcases Multiset.mem_cons.mp hr with rfl | hr
    · exact ⟨hd, IsEntrySet.empty t d⟩
    · exact h.rootsOk r hr
  · rw [live_cons_empty]
    exact h.fn_iff
  · rw [live_cons_empty]
    exact h.sen_iff
  · rw [live_cons_empty]
    exact h.fn_node
  · rw [live_cons_empty]
    exact h.sen_node
  · rw [hcount]
    exact h.fn_refs hn
  · rw [hcount]
    exact h.sen_refs hn

theorem not_live_zero : ¬ Live (0 : Multiset (Root K V)) d S := by
  intro h
  induction h with
  | root hm _ => exact Multiset.notMem_zero _ hm
  | child _ _ _ _ _ ih => exact ih

theorem canonical_empty : Canonical t (NodeStorage.empty : NodeStorage M K V) 0 := by
  refine ⟨fun r hr => absurd hr (Multiset.notMem_zero r), fun d id => ?_, fun d id => ?_,
    fun hS => absurd hS not_live_zero, fun hS => absurd hS not_live_zero, fun hn => ?_,
    fun hn => ?_⟩
  · simp [NodeStorage.empty, contains, not_live_zero]
  · simp [NodeStorage.empty, contains, not_live_zero]
  · simp [NodeStorage.empty] at hn
  · simp [NodeStorage.empty] at hn

theorem storageOk_empty : StorageOk t F (NodeStorage.empty : NodeStorage M K V) 0 := by
  refine StorageOk.mono (Canonical.storageOk canonical_empty ?_) fun hS => absurd hS not_live_zero
  exact ⟨fun hS => absurd hS not_live_zero, fun hS => absurd hS not_live_zero⟩

/-- Every family of handles without collisions has a canonical storage. -/
theorem exists_canonical {roots : Multiset (Root K V)} (hr : RootsOk t roots)
    (hn : NoCollision t roots) : ∃ ns : NodeStorage M K V, Canonical t ns roots := by
  induction roots using Multiset.induction_on with
  | empty => exact ⟨_, canonical_empty⟩
  | cons r rest ih =>
    obtain ⟨d, S⟩ := r
    obtain ⟨ns, hc⟩ := ih (fun r h => hr r (Multiset.mem_cons_of_mem h))
      (hn.mono fun r h => Multiset.mem_cons_of_mem h)
    obtain ⟨hd, hS⟩ := hr _ (Multiset.mem_cons_self _ _)
    have hset : S.toList.toFinset = S := Finset.toList_toFinset S
    have hcol : NoCollision t (⟨d, ∅⟩ ::ₘ ⟨d, S⟩ ::ₘ rest) := by
      refine ⟨?_, ?_⟩
      · rw [live_cons_empty]
        exact hn.hash_inj
      · rw [live_cons_empty]
        exact hn.hash_ne_seed
    have hins := (hc.cons_empty hd).update (RawHypertrieContext.insert t ns d (t.ident d ∅) S.toList)
      hcol hS (by
        intro F hF hd h hempty hSF
        have h := insert_spec hF hd h hempty S.nodup_toList (Finset.disjoint_empty_left _)
        rw [hset, Finset.empty_union] at h
        exact h hSF)
    obtain ⟨out, -, -, -, hcan, -⟩ := hins
    exact ⟨out.2, hcan⟩

/-- The search in a full node returns the one entry that is not removed; while no more than one
remains, it returns nothing exactly if all are removed. -/
theorem remaining_exact {roots : Multiset (Root K V)} (hc : Canonical t ns roots)
    (hn : NoCollision t roots) (hS : Live roots d S) (hcard : 2 ≤ S.card)
    {removed : List (SingleEntry K V)} (hsub : removed.toFinset ⊆ S) :
    ∃ node, find (ns.fns d) (t.ident d S) = some node ∧
      (∀ e, S \ removed.toFinset = {e} →
        retrieveRemainingSingleEntry t ns d node removed = some e) ∧
      ((S \ removed.toFinset).card ≤ 1 →
        Ensures (retrieveRemainingSingleEntryImpl t ns d node removed) (fun r =>
          (r = none ↔ removed.toFinset = S) ∧ ∀ e, r = some e ↔ e ∈ S \ removed.toFinset)) := by
  have hr := hc.readable hn
  have hd := hS.depth_pos hc.rootsOk
  have hok : ∀ d' ≤ d, NodesOk t (Live roots) ns d' ∧ ChildrenStored t (Live roots) ns d' :=
    fun d' _ => ⟨hr.nodes d', hr.children d'⟩
  obtain ⟨node, hnode⟩ := contains_iff.mp ((hc.fn_iff d _).mpr ⟨S, hS, hcard, rfl⟩)
  refine ⟨node, hnode, fun e he => ?_, fun hone => ?_⟩
  · exact retrieveRemainingSingleEntry_spec hr.inPlay hok hS hcard hd hnode hsub he
  · have hspec := retrieveRemainingSingleEntryImpl_spec hr.inPlay hok hS hcard hd hnode hsub hone
    refine hspec.mono fun r hre => ⟨?_, hre⟩
    have hnone : r = none ↔ S \ removed.toFinset = ∅ := by
      rw [Option.eq_none_iff_forall_ne_some, Finset.eq_empty_iff_forall_notMem]
      exact forall_congr' fun e => not_congr (hre e)
    rw [hnone, Finset.sdiff_eq_empty_iff_subset]
    exact ⟨fun h => hsub.antisymm h, fun h => h.ge⟩

/-- The entry that remains shares its first key part with the removed one. -/
theorem remaining_exact_two : ∃ (ns : NodeStorage AssocMap (BitVec 64) Bool) (node : _),
    find (ns.fns 2) (defaultBoolTrait.ident 2 {⟨[3, 4], true⟩, ⟨[3, 5], true⟩}) = some node ∧
      retrieveRemainingSingleEntry defaultBoolTrait ns 2 node [⟨[3, 4], true⟩] =
        some ⟨[3, 5], true⟩ := by
  let roots : Multiset (Root (BitVec 64) Bool) := {⟨2, {⟨[3, 4], true⟩, ⟨[3, 5], true⟩}⟩}
  have hr : RootsOk defaultBoolTrait roots := by
    intro r hr
    obtain rfl := Multiset.mem_singleton.mp hr
    exact ⟨by decide, by decide, by decide, by decide⟩
  have hn : NoCollision defaultBoolTrait roots :=
    noCollision_of_liveSets (by decide +kernel) (by decide +kernel)
  obtain ⟨ns, hc⟩ := exists_canonical (M := AssocMap) hr hn
  have hlive : Live roots 2 {⟨[3, 4], true⟩, ⟨[3, 5], true⟩} :=
    .root (Multiset.mem_singleton_self _) (by decide)
  have hremoved : [⟨[3, 4], true⟩].toFinset ⊆
      ({⟨[3, 4], true⟩, ⟨[3, 5], true⟩} : Finset (SingleEntry (BitVec 64) Bool)) := by decide
  obtain ⟨node, hnode, hone, -⟩ := remaining_exact hc hn hlive (by decide) hremoved
  exact ⟨ns, node, hnode, hone _ (by decide)⟩

omit [Inhabited K] in
/-- New entries with distinct keys can be added to a set of entries. -/
theorem isEntrySet_inserted (hset : IsEntrySet t d S) (hlength : ∀ e ∈ entries, e.key.length = d)
    (hvalue : ∀ e ∈ entries, e.value ≠ t.zero) (hkeys : (entries.map SingleEntry.key).Nodup)
    (hnew : ∀ e ∈ entries, ∀ e' ∈ S, e.key ≠ e'.key) : IsEntrySet t d (S ∪ entries.toFinset) := by
  refine ⟨?_, ?_, ?_⟩
  · intro e he
    rcases Finset.mem_union.mp he with he | he
    · exact hset.length e he
    · exact hlength e (List.mem_toFinset.mp he)
  · intro e he
    rcases Finset.mem_union.mp he with he | he
    · exact hset.value e he
    · exact hvalue e (List.mem_toFinset.mp he)
  · intro e he e' he' hk
    rcases Finset.mem_union.mp he with he | he <;> rcases Finset.mem_union.mp he' with he' | he'
    · exact hset.unique e he e' he' hk
    · exact absurd hk.symm (hnew e' (List.mem_toFinset.mp he') e he)
    · exact absurd hk (hnew e (List.mem_toFinset.mp he) e' he')
    · exact List.inj_on_of_nodup_map hkeys (List.mem_toFinset.mp he) (List.mem_toFinset.mp he') hk

/-- Inserting new entries through a handle of a canonical storage. -/
theorem insert_canonical (hc : Canonical t ns (⟨d, S⟩ ::ₘ rest))
    (hn : NoCollision t (⟨d, S⟩ ::ₘ ⟨d, S ∪ entries.toFinset⟩ ::ₘ rest))
    (hlength : ∀ e ∈ entries, e.key.length = d) (hvalue : ∀ e ∈ entries, e.value ≠ t.zero)
    (hkeys : (entries.map SingleEntry.key).Nodup) (hnew : ∀ e ∈ entries, ∀ e' ∈ S, e.key ≠ e'.key) :
    Ensures (RawHypertrieContext.insert t ns d (t.ident d S) entries)
      (fun out => out.1 = t.ident d (S ∪ entries.toFinset) ∧
        (out.1.isEmpty = true ↔ S ∪ entries.toFinset = ∅) ∧
        Canonical t out.2 (⟨d, S ∪ entries.toFinset⟩ ::ₘ rest) ∧ SameReads t ns out.2 rest) := by
  have hset := (hc.rootsOk _ (Multiset.mem_cons_self _ _)).2
  have hdisj : Disjoint S entries.toFinset := by
    rw [Finset.disjoint_left]
    exact fun e he he' => hnew e (List.mem_toFinset.mp he') e he rfl
  have hT := isEntrySet_inserted hset hlength hvalue hkeys hnew
  exact hc.update _ hn hT fun F hF hd h hS hTF =>
    insert_spec hF hd h hS hkeys.of_map hdisj hTF

/-- A second entry joins the first one, whose node another handle holds as well. -/
theorem insert_canonical_shared :
    ∃ ns : NodeStorage AssocMap (BitVec 64) Bool,
      Canonical defaultBoolTrait ns (⟨2, {⟨[1, 2], true⟩}⟩ ::ₘ {⟨2, {⟨[1, 2], true⟩}⟩}) ∧
        Ensures (RawHypertrieContext.insert defaultBoolTrait ns 2
            (defaultBoolTrait.ident 2 {⟨[1, 2], true⟩}) [⟨[1, 3], true⟩])
          (fun out => out.1 = defaultBoolTrait.ident 2 {⟨[1, 2], true⟩, ⟨[1, 3], true⟩} ∧
            Canonical defaultBoolTrait out.2
              (⟨2, {⟨[1, 2], true⟩, ⟨[1, 3], true⟩}⟩ ::ₘ {⟨2, {⟨[1, 2], true⟩}⟩})) := by
  have hr : RootsOk defaultBoolTrait (⟨2, {⟨[1, 2], true⟩}⟩ ::ₘ {⟨2, {⟨[1, 2], true⟩}⟩}) := by
    intro r hr
    obtain rfl : r = ⟨2, {⟨[1, 2], true⟩}⟩ := by simpa using hr
    exact ⟨by decide, by decide, by decide, by decide⟩
  have hn : NoCollision defaultBoolTrait (⟨2, {⟨[1, 2], true⟩}⟩ ::ₘ
      ⟨2, {⟨[1, 2], true⟩} ∪ [⟨[1, 3], true⟩].toFinset⟩ ::ₘ {⟨2, {⟨[1, 2], true⟩}⟩}) :=
    noCollision_of_liveSets (by decide +kernel) (by decide +kernel)
  obtain ⟨ns, hc⟩ := exists_canonical (M := AssocMap) hr (hn.mono (by simp))
  have h := insert_canonical hc hn (by decide) (by decide) (by decide) (by decide)
  exact ⟨ns, hc, h.mono fun out ho => ⟨ho.1, ho.2.2.1⟩⟩

/-- Removing entries through a handle of a canonical storage. -/
theorem remove_canonical (hc : Canonical t ns (⟨d, S⟩ ::ₘ rest))
    (hn : NoCollision t (⟨d, S⟩ ::ₘ ⟨d, S \ entries.toFinset⟩ ::ₘ rest))
    (hdistinct : entries.Nodup) (hsub : entries.toFinset ⊆ S) :
    Ensures (RawHypertrieContext.remove t ns d (t.ident d S) entries)
      (fun out => out.1 = t.ident d (S \ entries.toFinset) ∧
        (out.1.isEmpty = true ↔ S \ entries.toFinset = ∅) ∧
        Canonical t out.2 (⟨d, S \ entries.toFinset⟩ ::ₘ rest) ∧ SameReads t ns out.2 rest) := by
  have hset := (hc.rootsOk _ (Multiset.mem_cons_self _ _)).2
  exact hc.update _ hn (hset.subset Finset.sdiff_subset) fun F hF hd h hS hTF =>
    remove_spec hF hd h hS hdistinct hsub hTF

/-- Of two entries one remains. -/
theorem remove_canonical_shrinks :
    ∃ ns : NodeStorage AssocMap (BitVec 64) Bool,
      Canonical defaultBoolTrait ns {⟨2, {⟨[1, 2], true⟩, ⟨[1, 3], true⟩}⟩} ∧
        Ensures (RawHypertrieContext.remove defaultBoolTrait ns 2
            (defaultBoolTrait.ident 2 {⟨[1, 2], true⟩, ⟨[1, 3], true⟩}) [⟨[1, 3], true⟩])
          (fun out => out.1 = defaultBoolTrait.ident 2 {⟨[1, 2], true⟩} ∧
            Canonical defaultBoolTrait out.2 {⟨2, {⟨[1, 2], true⟩}⟩}) := by
  have hr : RootsOk defaultBoolTrait {⟨2, {⟨[1, 2], true⟩, ⟨[1, 3], true⟩}⟩} := by
    intro r hr
    obtain rfl := Multiset.mem_singleton.mp hr
    exact ⟨by decide, by decide, by decide, by decide⟩
  have hn : NoCollision defaultBoolTrait (⟨2, {⟨[1, 2], true⟩, ⟨[1, 3], true⟩}⟩ ::ₘ
      ⟨2, {⟨[1, 2], true⟩, ⟨[1, 3], true⟩} \ [⟨[1, 3], true⟩].toFinset⟩ ::ₘ 0) :=
    noCollision_of_liveSets (by decide +kernel) (by decide +kernel)
  obtain ⟨ns, hc⟩ := exists_canonical (M := AssocMap) hr (hn.mono (by simp))
  have h := remove_canonical hc hn (by decide) (by decide)
  have hset : ({⟨[1, 2], true⟩, ⟨[1, 3], true⟩} \ [⟨[1, 3], true⟩].toFinset :
      Finset (SingleEntry (BitVec 64) Bool)) = {⟨[1, 2], true⟩} := by decide
  rw [hset] at h
  exact ⟨ns, hc, h.mono fun out ho => ⟨ho.1, ho.2.2.1⟩⟩

end Canonical

end Hypertrie
