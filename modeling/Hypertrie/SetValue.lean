import Hypertrie.CanonicalUpdate

/-! Setting the value of one key of a bool-valued hypertrie. -/

namespace Hypertrie

open UnorderedMap

variable {M : Type → Type → Type} [UnorderedMap M] {K V : Type}
variable [DecidableEq K] [DecidableEq V]
variable {t : HypertrieTrait K V} {F : Nat → Finset (SingleEntry K V) → Prop}
variable {ns : NodeStorage M K V} {roots rest : Multiset (Root K V)} {d : Nat}
  {S : Finset (SingleEntry K V)} {key : List K} {value oldValue : V}

/-- The set of entries with another value for one key. -/
def setEntries (t : HypertrieTrait K V) (S : Finset (SingleEntry K V)) (key : List K) (value : V) :
    Finset (SingleEntry K V) :=
  if value = t.zero then S.filter (·.key ≠ key)
  else insert ⟨key, value⟩ (S.filter (·.key ≠ key))

/-- An empty hypertrie with entries in place gets the key before its value is read. -/
def setBeforeRead (t : HypertrieTrait K V) (d : Nat) (S : Finset (SingleEntry K V)) (key : List K) :
    Finset (SingleEntry K V) :=
  if t.inPlaceNode d = true ∧ S = ∅ then {⟨key, t.one⟩} else S

section SetEntries

theorem valueAt_setEntries_self : ValueAt t (setEntries t S key value) key value := by
  unfold setEntries
  split
  next h0 => exact Or.inr ⟨h0, fun e he => (Finset.mem_filter.mp he).2⟩
  next => exact Or.inl (Finset.mem_insert_self _ _)

theorem valueAt_setEntries_ne {key' : List K} {v : V} (hk : key' ≠ key) :
    ValueAt t (setEntries t S key value) key' v ↔ ValueAt t S key' v := by
  have hmem : ∀ e : SingleEntry K V, e.key = key' → (e ∈ setEntries t S key value ↔ e ∈ S) := by
    intro e he
    have hne : e.key ≠ key := by rwa [he]
    unfold setEntries
    split
    · simp [hne]
    · have hnew : e ≠ ⟨key, value⟩ := fun h => hne (by rw [h])
      simp [hne, hnew]
  unfold ValueAt
  rw [hmem ⟨key', v⟩ rfl]
  refine or_congr_right (and_congr_right fun _ => ?_)
  constructor
  · intro h e he hke
    exact h e ((hmem e hke).mpr he) hke
  · intro h e he hke
    exact h e ((hmem e hke).mp he) hke

theorem isEntrySet_setEntries (value : V) (hS : IsEntrySet t d S) (hl : key.length = d) :
    IsEntrySet t d (setEntries t S key value) := by
  have hfilter : IsEntrySet t d (S.filter (·.key ≠ key)) := hS.subset (Finset.filter_subset _ _)
  unfold setEntries
  split
  next => exact hfilter
  next h0 =>
    have hold : ∀ e ∈ S.filter (·.key ≠ key), e.key ≠ key := fun e he => (Finset.mem_filter.mp he).2
    refine ⟨fun e he => ?_, fun e he => ?_, fun e he e' he' hk => ?_⟩
    · rcases Finset.mem_insert.mp he with rfl | he
      · exact hl
      · exact hfilter.length e he
    · rcases Finset.mem_insert.mp he with rfl | he
      · exact h0
      · exact hfilter.value e he
    · rcases Finset.mem_insert.mp he with rfl | he <;> rcases Finset.mem_insert.mp he' with rfl | he'
      · rfl
      · exact absurd hk.symm (hold e' he')
      · exact absurd hk (hold e he)
      · exact hfilter.unique e he e' he' hk

theorem isEntrySet_setBeforeRead (hS : IsEntrySet t d S) (hl : key.length = d) :
    IsEntrySet t d (setBeforeRead t d S key) := by
  unfold setBeforeRead
  split
  next =>
    refine ⟨fun e he => ?_, fun e he => ?_, fun e he e' he' _ => ?_⟩
    · rw [Finset.mem_singleton.mp he]
      exact hl
    · rw [Finset.mem_singleton.mp he]
      exact t.zero_ne_one.symm
    · rw [Finset.mem_singleton.mp he, Finset.mem_singleton.mp he']
  next => exact hS

theorem setEntries_setBeforeRead :
    setEntries t (setBeforeRead t d S key) key value = setEntries t S key value := by
  unfold setBeforeRead
  split
  next h => simp [setEntries, h.2, Finset.filter_singleton]
  next => rfl

omit [DecidableEq V] in
theorem filter_key_ne_of_absent (h : ∀ e ∈ S, e.key ≠ key) : S.filter (·.key ≠ key) = S :=
  Finset.filter_true_of_mem h

theorem filter_key_ne_of_mem (hS : IsEntrySet t d S) (h : ⟨key, value⟩ ∈ S) :
    S.filter (·.key ≠ key) = S \ {⟨key, value⟩} := by
  ext e
  simp only [Finset.mem_filter, Finset.mem_sdiff, Finset.mem_singleton]
  refine and_congr_right fun he => ⟨fun hk hee => hk (by rw [hee]), fun hne hk => ?_⟩
  exact hne (hS.unique e he _ h hk)

/-- Setting the value that is there already changes nothing. -/
theorem setEntries_of_valueAt (hS : IsEntrySet t d S) (h : ValueAt t S key value) :
    setEntries t S key value = S := by
  unfold setEntries
  rcases h with h | ⟨h0, habsent⟩
  · rw [if_neg (hS.value _ h), filter_key_ne_of_mem hS h, Finset.insert_sdiff_self_of_mem h]
  · rw [if_pos h0, filter_key_ne_of_absent habsent]

end SetEntries

section Spec

variable [Inhabited K]

open RawHypertrieContext

theorem StorageOk.readable (hF : InPlay t F) (h : StorageOk t F ns roots) : Readable t F ns :=
  ⟨hF, h.nodes, h.childrenStored hF⟩

theorem StorageOk.get (hF : InPlay t F) (hd : 0 < d) (h : StorageOk t F ns roots)
    (hr : ⟨d, S⟩ ∈ roots) (hS : S.Nonempty → F d S) (hl : key.length = d) :
    Ensures (RawHypertrieContext.get t ns d (t.ident d S) key) (ValueAt t S key) := by
  refine get_spec (h.readable hF) hd hS ?_ hl
  rcases S.eq_empty_or_nonempty with rfl | hne
  · exact ⟨fun hc => by simp at hc, fun hc => by simp at hc⟩
  · exact h.stored_root hF (hS hne) hne hr

theorem insertIntoEmptyInPlace_spec (hF : InPlay t F) (hd : 0 < d)
    (h : StorageOk t F ns (⟨d, S⟩ ::ₘ rest)) (hS : S.Nonempty → F d S)
    (hB : (setBeforeRead t d S key).Nonempty → F d (setBeforeRead t d S key)) :
    Ensures (insertIntoEmptyInPlace t ns d (t.ident d S) key value)
      (fun out => out.1 = t.ident d (setBeforeRead t d S key) ∧
        StorageOk t F out.2 (⟨d, setBeforeRead t d S key⟩ ::ₘ rest)) := by
  unfold insertIntoEmptyInPlace
  have hempty : (t.ident d S).isEmpty = true ↔ S = ∅ := by
    rcases S.eq_empty_or_nonempty with rfl | hne
    · simp [RawIdentifier.isEmpty]
    · simp [RawIdentifier.isEmpty, hF.ident_ne_seed (hS hne) hne, hne.ne_empty]
  by_cases hp : t.inPlaceNode d = true ∧ S = ∅
  · obtain ⟨hplace, rfl⟩ := hp
    have hb := (HypertrieTrait.inPlaceNode_iff.mp hplace).1
    have hset : setBeforeRead t d ∅ key = ∅ ∪ [t.makeEntry key value].toFinset := by
      simp [setBeforeRead, hplace, HypertrieTrait.makeEntry, hb]
    rw [if_pos (by simp [hplace, RawIdentifier.isEmpty]), hset]
    rw [hset] at hB
    exact insert_spec hF hd h hS (List.nodup_singleton _) (Finset.disjoint_empty_left _) hB
  · rw [if_neg (by simpa [hempty] using hp)]
    have hset : setBeforeRead t d S key = S := by
      rw [setBeforeRead, if_neg hp]
    rw [hset]
    exact Ensures.pure ⟨rfl, h⟩

theorem setChanged_spec (value : V) (hb : t.isBoolValued = true) (hF : InPlay t F) (hd : 0 < d)
    (hset : IsEntrySet t d S) (h : StorageOk t F ns (⟨d, S⟩ ::ₘ rest)) (hS : S.Nonempty → F d S)
    (hT : (setEntries t S key value).Nonempty → F d (setEntries t S key value))
    (hold : ValueAt t S key oldValue) :
    Ensures (setChanged t ns d (t.ident d S) key value oldValue)
      (fun out => out.1 = t.ident d (setEntries t S key value) ∧
        StorageOk t F out.2 (⟨d, setEntries t S key value⟩ ::ₘ rest)) := by
  unfold setChanged
  by_cases heq : value = oldValue
  · rw [if_pos heq, setEntries_of_valueAt hset (heq ▸ hold)]
    exact Ensures.pure ⟨rfl, h⟩
  rw [if_neg heq]
  by_cases h0 : value = t.zero
  · -- the old value is the other one, so the key has an entry
    have hone : oldValue = t.one := HypertrieTrait.eq_one_of_ne_zero hb fun ho => heq (h0.trans ho.symm)
    have hmem : ⟨key, t.one⟩ ∈ S := by
      rcases hold with hmem | ⟨hz, -⟩
      · rwa [hone] at hmem
      · exact absurd (hz.symm.trans hone) t.zero_ne_one
    have hT' : setEntries t S key value = S \ [⟨key, t.one⟩].toFinset := by
      rw [setEntries, if_pos h0, filter_key_ne_of_mem hset hmem]
      rfl
    rw [if_pos h0, if_pos hb, hT']
    rw [hT'] at hT
    exact remove_spec hF hd h hS (List.nodup_singleton _) (by simpa using hmem) hT
  · have hone := HypertrieTrait.eq_one_of_ne_zero hb h0
    have hzero : oldValue = t.zero :=
      (t.bool_valued hb oldValue).resolve_right fun ho => heq (hone.trans ho.symm)
    have habsent : ∀ e ∈ S, e.key ≠ key := by
      rcases hold with hmem | ⟨-, habsent⟩
      · exact absurd hzero (hset.value _ hmem)
      · exact habsent
    have hT' : setEntries t S key value = S ∪ [t.makeEntry key value].toFinset := by
      rw [setEntries, if_neg h0, filter_key_ne_of_absent habsent, t.makeEntry_of_ne_zero key h0,
        Finset.union_comm]
      rfl
    rw [if_neg h0, if_pos hzero, hT']
    rw [hT'] at hT
    refine insert_spec hF hd h hS (List.nodup_singleton _) ?_ hT
    rw [t.makeEntry_of_ne_zero key h0, Finset.disjoint_left]
    intro e he hk
    refine habsent e he ?_
    rw [List.mem_singleton.mp (List.mem_toFinset.mp hk)]

/-- The value that is returned is read after an empty hypertrie with entries in place has got the
key. -/
theorem set_spec (hb : t.isBoolValued = true) (hF : InPlay t F) (hd : 0 < d)
    (hset : IsEntrySet t d S) (h : StorageOk t F ns (⟨d, S⟩ ::ₘ rest)) (hl : key.length = d)
    (hS : S.Nonempty → F d S)
    (hB : (setBeforeRead t d S key).Nonempty → F d (setBeforeRead t d S key))
    (hT : (setEntries t S key value).Nonempty → F d (setEntries t S key value)) :
    Ensures (RawHypertrieContext.set t ns d (t.ident d S) key value)
      (fun out => ValueAt t (setBeforeRead t d S key) key out.1 ∧
        out.2.1 = t.ident d (setEntries t S key value) ∧
        StorageOk t F out.2.2 (⟨d, setEntries t S key value⟩ ::ₘ rest)) := by
  unfold RawHypertrieContext.set
  refine Ensures.bind (insertIntoEmptyInPlace_spec hF hd h hS hB) ?_
  rintro ⟨nodec, ns'⟩ ⟨rfl, h'⟩
  refine Ensures.bind (h'.get hF hd (Multiset.mem_cons_self _ _) hB hl) fun old hold => ?_
  have hT' : setEntries t (setBeforeRead t d S key) key value = setEntries t S key value :=
    setEntries_setBeforeRead
  have hchanged := setChanged_spec value hb hF hd (isEntrySet_setBeforeRead hset hl) h' hB
    (by rwa [hT']) hold
  rw [hT'] at hchanged
  exact Ensures.bind hchanged fun out hout => Ensures.pure ⟨hold, hout.1, hout.2⟩

end Spec

end Hypertrie
