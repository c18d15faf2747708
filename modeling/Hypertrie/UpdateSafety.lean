import Hypertrie.HandleCount

/-! No update of a canonical storage meets a broken state, at any depth. -/

namespace Hypertrie

open UnorderedMap UpdateRequests

variable {M : Type → Type → Type} [UnorderedMap M] {K V : Type}
variable [DecidableEq K] [DecidableEq V] [Inhabited K]
variable {t : HypertrieTrait K V} {F : Nat → Finset (SingleEntry K V) → Prop}
variable {ns : NodeStorage M K V} {rest : Multiset (Root K V)} {d : Nat}
  {S T : Finset (SingleEntry K V)} {entries : List (SingleEntry K V)}

/-- The requests can be made, and carried out safely at each depth. -/
def SafelyRequested (t : HypertrieTrait K V) (d : Nat) (ns : NodeStorage M K V)
    (request : Option (RawIdentifier × UpdateRequests M K V)) : Prop :=
  ∃ id ur ns', request = some (id, ur) ∧ SafeUpdate t d ns ur ns'

theorem safelyRequested_of_requested (hF : InPlay t F) (hd : 0 < d)
    (h : StorageOk t F ns (⟨d, S⟩ ::ₘ rest)) {request : Option (RawIdentifier × UpdateRequests M K V)}
    (hreq : Ensures request (Requested t F ns d .new S T true)) : SafelyRequested t d ns request := by
  obtain ⟨⟨id, ur⟩, hrequest, hres⟩ := hreq
  have hdelta : ∀ c, Tracked t d c →
      ur.delta t c = hits (childIdent t d T) c - hits (childIdent t d S) c := by
    intro c hc
    have := hres.delta c hc
    simpa using this
  obtain ⟨ns', hsafe, -⟩ := h.safeUpdate hF hd hres.valid hdelta
  exact ⟨id, ur, ns', hrequest, hsafe⟩

/-- Giving up one reference to a node that a handle holds. -/
theorem safeUpdate_release (hF : InPlay t F) (hd : 0 < d) (h : StorageOk t F ns (⟨d, S⟩ ::ₘ rest))
    (hS : F d S) (hne : S.Nonempty) :
    ∃ ns', SafeUpdate t d ns (UpdateRequests.new.applyRefCountDelta t d (t.ident d S) (-1)) ns' := by
  have hst := h.stored_root hF hS hne (Multiset.mem_cons_self _ _)
  have hnew : (UpdateRequests.new : UpdateRequests M K V).Valid t F ns d := Valid.new
  have hrel := release_spec hF hnew hS hne hst true
  rw [if_pos rfl] at hrel
  obtain ⟨ns', hsafe, -⟩ := h.safeUpdate (T := ∅) hF hd hrel.1 fun c hc => by
    rw [hrel.2 c hc]
    simp
  exact ⟨ns', hsafe⟩

omit [DecidableEq K] [DecidableEq V] [Inhabited K] in
/-- The roots before and after an update are those of a set of entries. -/
theorem rootsOk_update (hr : RootsOk t (⟨d, S⟩ ::ₘ rest)) (hT : IsEntrySet t d T) :
    RootsOk t (⟨d, S⟩ ::ₘ ⟨d, T⟩ ::ₘ rest) := by
  intro r hm
  rcases Multiset.mem_cons.mp hm with rfl | hm
  · exact hr _ (Multiset.mem_cons_self _ _)
  · rcases Multiset.mem_cons.mp hm with rfl | hm
    · exact ⟨(hr _ (Multiset.mem_cons_self _ _)).1, hT⟩
    · exact hr r (Multiset.mem_cons_of_mem hm)

theorem Canonical.storageOk_update (hc : Canonical t ns (⟨d, S⟩ ::ₘ rest))
    (hn : NoCollision t (⟨d, S⟩ ::ₘ ⟨d, T⟩ ::ₘ rest)) :
    StorageOk t (Live (⟨d, S⟩ ::ₘ ⟨d, T⟩ ::ₘ rest)) ns (⟨d, S⟩ ::ₘ rest) := by
  have hold : ∀ r ∈ ⟨d, S⟩ ::ₘ rest, r ∈ ⟨d, S⟩ ::ₘ ⟨d, T⟩ ::ₘ rest := by
    intro r hr
    simp only [Multiset.mem_cons] at hr ⊢
    exact hr.imp_right Or.inr
  exact (hc.storageOk (hn.mono hold)).mono fun hS => hS.mono hold

/-- Inserting, removing and giving up a reference, in a canonical storage. -/
theorem updates_safe (hc : Canonical t ns (⟨d, S⟩ ::ₘ rest)) :
    (∀ entries, entries ≠ [] → (∀ e ∈ entries, e.key.length = d) → (∀ e ∈ entries, e.value ≠ t.zero) →
      (entries.map SingleEntry.key).Nodup → (∀ e ∈ entries, ∀ e' ∈ S, e.key ≠ e'.key) →
      NoCollision t (⟨d, S⟩ ::ₘ ⟨d, S ∪ entries.toFinset⟩ ::ₘ rest) →
        SafelyRequested t d ns (requestUpdate t .insert d ns (t.ident d S) entries)) ∧
    (∀ entries, entries ≠ [] → entries.Nodup → entries.toFinset ⊆ S →
      NoCollision t (⟨d, S⟩ ::ₘ ⟨d, S \ entries.toFinset⟩ ::ₘ rest) →
        SafelyRequested t d ns (requestUpdate t .erase d ns (t.ident d S) entries)) ∧
    (S.Nonempty → NoCollision t (⟨d, S⟩ ::ₘ rest) →
      ∃ ns', SafeUpdate t d ns (UpdateRequests.new.applyRefCountDelta t d (t.ident d S) (-1)) ns') := by
  obtain ⟨hd, hset⟩ := hc.rootsOk _ (Multiset.mem_cons_self _ _)
  have hmem : ∀ T : Finset (SingleEntry K V),
      (⟨d, S⟩ : Root K V) ∈ ⟨d, S⟩ ::ₘ ⟨d, T⟩ ::ₘ rest ∧ ⟨d, T⟩ ∈ ⟨d, S⟩ ::ₘ ⟨d, T⟩ ::ₘ rest :=
    fun T => ⟨Multiset.mem_cons_self _ _, by simp⟩
  refine ⟨fun entries hne hlength hvalue hkeys hnew hn => ?_, fun entries hne hnodup hsub hn => ?_,
    fun hS hn => ?_⟩
  · have hdisj : Disjoint S entries.toFinset :=
      Finset.disjoint_left.mpr fun e he he' => hnew e (List.mem_toFinset.mp he') e he rfl
    have hT := isEntrySet_inserted hset hlength hvalue hkeys hnew
    have hF := hn.inPlay (rootsOk_update hc.rootsOk hT)
    have hok := hc.storageOk_update hn
    exact safelyRequested_of_requested hF hd hok (requestInsert_spec hF hok
      (fun hS => .root (hmem _).1 hS) hkeys.of_map hne hdisj fun hT => .root (hmem _).2 hT)
  · have hF := hn.inPlay (rootsOk_update hc.rootsOk (hset.subset Finset.sdiff_subset))
    have hok := hc.storageOk_update hn
    exact safelyRequested_of_requested hF hd hok (requestErase_spec hF hd hok
      (fun hS => .root (hmem _).1 hS) hnodup hne hsub fun hT => .root (hmem _).2 hT)
  · exact safeUpdate_release (hn.inPlay hc.rootsOk) hd (hc.storageOk hn)
      (.root (Multiset.mem_cons_self _ _) hS) hS

/-- Two entries that share a child; one more is inserted, one is removed, and the node is given
up. -/
theorem updates_safe_two : ∃ ns : NodeStorage AssocMap (BitVec 64) Bool,
    SafelyRequested defaultBoolTrait 2 ns (requestUpdate defaultBoolTrait .insert 2 ns
      (defaultBoolTrait.ident 2 {⟨[3, 4], true⟩, ⟨[5, 4], true⟩}) [⟨[3, 5], true⟩]) ∧
    SafelyRequested defaultBoolTrait 2 ns (requestUpdate defaultBoolTrait .erase 2 ns
      (defaultBoolTrait.ident 2 {⟨[3, 4], true⟩, ⟨[5, 4], true⟩}) [⟨[5, 4], true⟩]) ∧
    ∃ ns', SafeUpdate defaultBoolTrait 2 ns (UpdateRequests.new.applyRefCountDelta defaultBoolTrait 2
      (defaultBoolTrait.ident 2 {⟨[3, 4], true⟩, ⟨[5, 4], true⟩}) (-1)) ns' := by
  have hr : RootsOk defaultBoolTrait (⟨2, {⟨[3, 4], true⟩, ⟨[5, 4], true⟩}⟩ ::ₘ 0) := by
    intro r hr
    obtain rfl : r = ⟨2, {⟨[3, 4], true⟩, ⟨[5, 4], true⟩}⟩ := by simpa using hr
    exact ⟨by decide, by decide, by decide, by decide⟩
  have hinsert : NoCollision defaultBoolTrait (⟨2, {⟨[3, 4], true⟩, ⟨[5, 4], true⟩}⟩ ::ₘ
      ⟨2, {⟨[3, 4], true⟩, ⟨[5, 4], true⟩} ∪ [⟨[3, 5], true⟩].toFinset⟩ ::ₘ 0) :=
    noCollision_of_liveSets (by decide +kernel) (by decide +kernel)
  have herase : NoCollision defaultBoolTrait (⟨2, {⟨[3, 4], true⟩, ⟨[5, 4], true⟩}⟩ ::ₘ
      ⟨2, {⟨[3, 4], true⟩, ⟨[5, 4], true⟩} \ [⟨[5, 4], true⟩].toFinset⟩ ::ₘ 0) :=
    noCollision_of_liveSets (by decide +kernel) (by decide +kernel)
  have hroot : NoCollision defaultBoolTrait (⟨2, {⟨[3, 4], true⟩, ⟨[5, 4], true⟩}⟩ ::ₘ 0) :=
    herase.mono (by simp)
  obtain ⟨ns, hc⟩ := exists_canonical (M := AssocMap) hr hroot
  obtain ⟨hins, hera, hrel⟩ := updates_safe hc
  exact ⟨ns, hins _ (by decide) (by decide) (by decide) (by decide) (by decide) hinsert,
    hera _ (by decide) (by decide) (by decide) herase, hrel (by decide) hroot⟩

end Hypertrie
