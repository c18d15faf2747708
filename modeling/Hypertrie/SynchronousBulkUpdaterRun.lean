import Hypertrie.SynchronousBulkUpdater

/-! Runs of the synchronous bulk updater. When the de-duplication set is emptied
it forgets the entries that are still to be inserted; one of these that is
added again is twice in the bulk. Removing is not done at all. -/

namespace Hypertrie

open UnorderedMap BulkUpdater

variable {M : Type → Type → Type} [UnorderedMap M] {K V : Type}
variable [DecidableEq K] [DecidableEq V] [Inhabited K]
variable {t : HypertrieTrait K V} {F : Nat → Finset (SingleEntry K V) → Prop}
variable {cfg : BulkUpdaterSettings} {rest : Multiset (Root K V)} {S T : Finset (SingleEntry K V)}
  {e : SingleEntry K V} {ns : NodeStorage M K V}

namespace SynchronousBulkUpdater

variable {u : SynchronousBulkUpdater M K V} {calls : List (UpdaterCall K)}

/-- An updater whose handle stands for `T`; `rest` are the other handles of the context. -/
structure Ok (t : HypertrieTrait K V) (F : Nat → Finset (SingleEntry K V) → Prop)
    (cfg : BulkUpdaterSettings) (rest : Multiset (Root K V)) (u : SynchronousBulkUpdater M K V)
    (T : Finset (SingleEntry K V)) : Prop where
  nodec : u.nodec = t.ident cfg.depth T
  storage : StorageOk t F u.nodeStorage (⟨cfg.depth, T⟩ ::ₘ rest)
  entrySet : IsEntrySet t cfg.depth T
  inPlay : T.Nonempty → F cfg.depth T
  bulk : BulkOk t F cfg T u.newEntries u.deDuplication

/-- The entries that the calls add. -/
def addedBy (t : HypertrieTrait K V) (calls : List (UpdaterCall K)) : List (SingleEntry K V) :=
  calls.filterMap fun
    | .add key => some (t.makeEntry key t.one)
    | .flush => none

/-- An entry that is in the current bulk when it is added is in the de-duplication set. -/
def PendingSeen (t : HypertrieTrait K V) (cfg : BulkUpdaterSettings)
    (u : SynchronousBulkUpdater M K V) (calls : List (UpdaterCall K)) : Prop :=
  ∀ before key after u', calls = before ++ .add key :: after →
    before.foldlM (call t cfg) u = some u' → t.makeEntry key t.one ∈ u'.newEntries →
      contains u'.deDuplication (t.ident cfg.depth {t.makeEntry key t.one}) = true

theorem PendingSeen.tail {c : UpdaterCall K} {u' : SynchronousBulkUpdater M K V}
    (h : PendingSeen t cfg u (c :: calls)) (hc : call t cfg u c = some u') :
    PendingSeen t cfg u' calls := by
  intro before key after u'' hcalls hu'' hm
  refine h (c :: before) key after u'' (by rw [hcalls, List.cons_append]) ?_ hm
  rw [List.foldlM_cons, hc]
  exact hu''

theorem contains_deDuplicate {deDuplication : M RawIdentifier Unit} {id id' : RawIdentifier}
    (h : contains (deDuplicate cfg deDuplication id) id' = true) :
    id' = id ∨ contains deDuplication id' = true := by
  rw [deDuplicate] at h
  split at h
  · simp [contains] at h
  · exact (contains_emplace _ _ _).mp h

section Insert

theorem flush_spec (hb : t.isBoolValued = true) (hF : InPlay t F) (hd : 0 < cfg.depth)
    (hmode : cfg.mode = .insert) (hu : Ok t F cfg rest u T)
    (hplay : (T ∪ u.newEntries.toFinset).Nonempty → F cfg.depth (T ∪ u.newEntries.toFinset)) :
    Ensures (flush t cfg u) (fun u' =>
      u'.newEntries = [] ∧ Ok t F cfg rest u' (T ∪ u.newEntries.toFinset)) := by
  rw [flush]
  split
  next hnil =>
    refine Ensures.pure ⟨hnil, ?_⟩
    rw [hnil, List.toFinset_nil, Finset.union_empty]
    exact hu
  next hne =>
    have hnew := hu.bulk.entry
    have hset := result_isEntrySet hu.entrySet hb fun e he => (hnew e he).1
    have hseen := hu.bulk.seen
    rw [hmode] at hset
    simp only [hmode, BulkUpdaterMode.IsDone] at hnew
    have hdisj : Disjoint T u.newEntries.toFinset :=
      Finset.disjoint_right.mpr fun e he => (hnew e (List.mem_toFinset.mp he)).2.2
    have hinsert := insert_spec hF hd hu.storage hu.inPlay hu.bulk.nodup hdisj hplay
    rw [← hu.nodec] at hinsert
    refine Ensures.map (hinsert.mono ?_)
    rintro ⟨nodec, ns⟩ ⟨hnodec, hns⟩
    refine ⟨rfl, hnodec, hns, hset, hplay, List.nodup_nil, ?_, fun id hid => ?_⟩
    · exact fun e he => absurd he List.not_mem_nil
    · obtain ⟨e, he, heid, hdone⟩ := hseen id hid
      rw [hmode] at hdone ⊢
      exact ⟨e, he, heid, by rwa [BulkUpdaterMode.result_nil]⟩

/-- An entry that was added is there or in the bulk. -/
theorem add_spec (hb : t.isBoolValued = true) (hF : InPlay t F) (hd : 0 < cfg.depth)
    (hmode : cfg.mode = .insert) (hu : Ok t F cfg rest u T) (heOk : EntryOk t cfg e)
    (he : F cfg.depth {e})
    (hrepeat : e ∈ u.newEntries → contains u.deDuplication (t.ident cfg.depth {e}) = true)
    (hplay : F cfg.depth (T ∪ u.newEntries.toFinset ∪ {e})) :
    Ensures (add t cfg u e) (fun u' => ∃ T', Ok t F cfg rest u' T' ∧
      T' ∪ u'.newEntries.toFinset = T ∪ u.newEntries.toFinset ∪ {e}) := by
  have hseenOr : ∀ id, contains (deDuplicate cfg u.deDuplication
      (t.encodeSingleEntry cfg.depth e)) id = true → id = t.encodeSingleEntry cfg.depth e ∨
        contains u.deDuplication id = true ∨ ∃ e' ∈ u.newEntries, t.ident cfg.depth {e'} = id :=
    fun id hid => (contains_deDuplicate hid).imp_right Or.inl
  have hskip : cfg.mode.IsDone (cfg.mode.result T u.newEntries) e →
      ∃ T', Ok t F cfg rest { u with
        deDuplication := deDuplicate cfg u.deDuplication (t.encodeSingleEntry cfg.depth e) } T' ∧
        T' ∪ u.newEntries.toFinset = T ∪ u.newEntries.toFinset ∪ {e} := by
    intro hdone
    refine ⟨T, ⟨hu.nodec, hu.storage, hu.entrySet, hu.inPlay, hu.bulk.skip he hdone hseenOr⟩, ?_⟩
    simp only [hmode, BulkUpdaterMode.IsDone, BulkUpdaterMode.result] at hdone
    rw [Finset.union_eq_left.mpr (Finset.singleton_subset_iff.mpr hdone)]
  rw [add]
  by_cases hseen : contains u.deDuplication (t.encodeSingleEntry cfg.depth e) = true
  · simp only [hseen, if_true]
    exact Ensures.pure (hskip (hu.bulk.isDone_of_seen hF he hseen))
  simp only [hseen]
  have hnot : e ∉ u.newEntries := fun hm => hseen (by
    rw [← HypertrieTrait.ident_singleton]
    exact hrepeat hm)
  have hget := hu.storage.get hF hd (Multiset.mem_cons_self _ _) hu.inPlay heOk.length
  rw [← hu.nodec] at hget
  refine Ensures.bind hget fun v hv => ?_
  have hchosen := isChosen_iff hb hu.entrySet heOk hv
  by_cases hc : isChosen cfg.mode (v ≠ t.zero) = true
  · have hpushed : Ok t F cfg rest { u with
        newEntries := u.newEntries ++ [e]
        deDuplication := deDuplicate cfg u.deDuplication (t.encodeSingleEntry cfg.depth e) } T :=
      ⟨hu.nodec, hu.storage, hu.entrySet, hu.inPlay,
        hu.bulk.push heOk he hnot (hchosen.mp hc) hseenOr⟩
    have hall : T ∪ (u.newEntries ++ [e]).toFinset = T ∪ u.newEntries.toFinset ∪ {e} := by
      rw [List.toFinset_append, Finset.union_assoc]
      rfl
    rw [if_pos hc, push]
    simp only
    split
    · refine (flush_spec hb hF hd hmode hpushed fun _ => ?_).mono fun u' hu' => ?_
      · rwa [hall]
      · refine ⟨_, hu'.2, ?_⟩
        rw [hu'.1, hall, List.toFinset_nil, Finset.union_empty]
    · exact Ensures.pure ⟨T, hpushed, hall⟩
  · rw [if_neg hc]
    exact Ensures.pure (hskip (not_not.mp (mt hchosen.mpr hc)).result)

omit [DecidableEq K] [DecidableEq V] [Inhabited K] in
theorem entryOk_makeEntry (hb : t.isBoolValued = true) {key : List K} (hl : key.length = cfg.depth) :
    EntryOk t cfg (t.makeEntry key t.one) :=
  ⟨hl, by simp [HypertrieTrait.makeEntry, hb]⟩

omit [DecidableEq K] [DecidableEq V] [Inhabited K] in
theorem addedBy_cons (c : UpdaterCall K) (calls : List (UpdaterCall K)) :
    addedBy t (c :: calls) = addedBy t [c] ++ addedBy t calls := by
  simp only [addedBy, ← List.filterMap_append, List.singleton_append]

theorem call_spec {c : UpdaterCall K} (hb : t.isBoolValued = true) (hF : InPlay t F)
    (hd : 0 < cfg.depth) (hmode : cfg.mode = .insert) (hu : Ok t F cfg rest u T)
    (hkey : ∀ key, c = .add key → key.length = cfg.depth) (hseen : PendingSeen t cfg u (c :: calls))
    (hsingle : ∀ e ∈ addedBy t [c], F cfg.depth {e})
    (hplay : (T ∪ u.newEntries.toFinset ∪ (addedBy t [c]).toFinset).Nonempty →
      F cfg.depth (T ∪ u.newEntries.toFinset ∪ (addedBy t [c]).toFinset)) :
    Ensures (call t cfg u c) (fun u' => ∃ T', Ok t F cfg rest u' T' ∧
      T' ∪ u'.newEntries.toFinset = T ∪ u.newEntries.toFinset ∪ (addedBy t [c]).toFinset) := by
  cases c with
  | flush =>
    have hadded : (addedBy t [(.flush : UpdaterCall K)]).toFinset = ∅ := rfl
    rw [hadded, Finset.union_empty] at hplay ⊢
    refine (flush_spec hb hF hd hmode hu hplay).mono fun u' hu' => ⟨_, hu'.2, ?_⟩
    rw [hu'.1, List.toFinset_nil, Finset.union_empty]
  | add key =>
    have hl := hkey key rfl
    have hadded : (addedBy t [.add key]).toFinset = {t.makeEntry key t.one} := rfl
    rw [hadded] at hplay ⊢
    rw [call, if_pos hl]
    refine add_spec hb hF hd hmode hu (entryOk_makeEntry hb hl) (hsingle _ List.mem_cons_self) ?_ (hplay ?_)
    · exact hseen [] key calls u rfl rfl
    · exact ⟨_, Finset.mem_union_right _ (Finset.mem_singleton_self _)⟩

/-- Any calls, if the sets that the hypertrie goes through are in play. -/
theorem calls_spec (hb : t.isBoolValued = true) (hF : InPlay t F) (hd : 0 < cfg.depth)
    (hmode : cfg.mode = .insert) (hu : Ok t F cfg rest u T)
    (hkeys : ∀ key, .add key ∈ calls → key.length = cfg.depth) (hseen : PendingSeen t cfg u calls)
    (hsingle : ∀ e ∈ addedBy t calls, F cfg.depth {e})
    (hplay : ∀ added, added <+: addedBy t calls →
      (T ∪ u.newEntries.toFinset ∪ added.toFinset).Nonempty →
        F cfg.depth (T ∪ u.newEntries.toFinset ∪ added.toFinset)) :
    Ensures (calls.foldlM (call t cfg) u) (fun u' => ∃ T', Ok t F cfg rest u' T' ∧
      T' ∪ u'.newEntries.toFinset = T ∪ u.newEntries.toFinset ∪ (addedBy t calls).toFinset) := by
  induction calls generalizing u T with
  | nil => exact Ensures.pure ⟨T, hu, by simp [addedBy]⟩
  | cons c calls ih =>
    rw [addedBy_cons] at hsingle hplay ⊢
    obtain ⟨u', hcall, T', hu', hheld⟩ := call_spec hb hF hd hmode hu
      (fun key hc => hkeys key (hc ▸ List.mem_cons_self)) hseen
      (fun e he => hsingle e (List.mem_append_left _ he)) (hplay _ (List.prefix_append _ _))
    rw [List.foldlM_cons, hcall, List.toFinset_append, ← Finset.union_assoc, ← hheld]
    refine ih hu' (fun key hm => hkeys key (List.mem_cons_of_mem _ hm)) (hseen.tail hcall)
      (fun e he => hsingle e (List.mem_append_right _ he)) fun added hp => ?_
    have := hplay (addedBy t [c] ++ added) ((List.prefix_append_right_inj _).mpr hp)
    rwa [List.toFinset_append, ← Finset.union_assoc, ← hheld] at this

/-- The sets that the hypertrie goes through, the single entries and the other handles. -/
def setsInPlay (d : Nat) (S : Finset (SingleEntry K V)) (added : List (SingleEntry K V))
    (rest : Multiset (Root K V)) : Multiset (Root K V) :=
  (added.inits.map fun done => ⟨d, S ∪ done.toFinset⟩ : List (Root K V)) +
    (added.map fun e => ⟨d, {e}⟩ : List (Root K V)) + rest

variable {added : List (SingleEntry K V)} {d : Nat}

omit [Inhabited K] in
theorem mem_setsInPlay {r : Root K V} : r ∈ setsInPlay d S added rest ↔
    (∃ done, done <+: added ∧ r = ⟨d, S ∪ done.toFinset⟩) ∨ (∃ e ∈ added, r = ⟨d, {e}⟩) ∨ r ∈ rest := by
  simp only [setsInPlay, Multiset.mem_add, Multiset.mem_coe, List.mem_map, List.mem_inits, eq_comm,
    or_assoc]

omit [Inhabited K] in
theorem union_mem_setsInPlay {done : List (SingleEntry K V)} (h : done <+: added) :
    ⟨d, S ∪ done.toFinset⟩ ∈ setsInPlay d S added rest :=
  mem_setsInPlay.mpr (.inl ⟨done, h, rfl⟩)

omit [Inhabited K] in
theorem held_mem_setsInPlay {done : List (SingleEntry K V)} (h : done <+: added) {r : Root K V}
    (hr : r ∈ (⟨d, S ∪ done.toFinset⟩ ::ₘ rest : Multiset (Root K V))) :
    r ∈ setsInPlay d S added rest := by
  rcases Multiset.mem_cons.mp hr with rfl | hr
  · exact union_mem_setsInPlay h
  · exact mem_setsInPlay.mpr (.inr (.inr hr))

omit [Inhabited K] in
theorem isEntrySet_union (hb : t.isBoolValued = true) (hS : IsEntrySet t cfg.depth S)
    (hadded : ∀ e ∈ added, EntryOk t cfg e) : IsEntrySet t cfg.depth (S ∪ added.toFinset) := by
  let inserting : BulkUpdaterSettings := ⟨.insert, cfg.depth, cfg.requestedBulkSize⟩
  have hok (e) (he : e ∈ added) : EntryOk t inserting e := ⟨(hadded e he).length, (hadded e he).value⟩
  have hS : IsEntrySet t inserting.depth S := hS
  exact result_isEntrySet hS hb hok

omit [Inhabited K] in
theorem rootsOk_setsInPlay (hb : t.isBoolValued = true) (hr : RootsOk t (⟨cfg.depth, S⟩ ::ₘ rest))
    (hadded : ∀ e ∈ added, EntryOk t cfg e) : RootsOk t (setsInPlay cfg.depth S added rest) := by
  have hheld := hr _ (Multiset.mem_cons_self _ _)
  intro r hm
  rcases mem_setsInPlay.mp hm with ⟨done, hdone, rfl⟩ | ⟨e, he, rfl⟩ | hm
  · exact ⟨hheld.1, isEntrySet_union hb hheld.2 fun e he => hadded e (hdone.subset he)⟩
  · have hsingle := isEntrySet_union hb (IsEntrySet.empty t cfg.depth)
      (List.forall_mem_singleton.mpr (hadded e he))
    exact ⟨hheld.1, hsingle⟩
  · exact hr r (Multiset.mem_cons_of_mem hm)

omit [DecidableEq K] [DecidableEq V] [Inhabited K] in
theorem entryOk_of_mem_addedBy (hb : t.isBoolValued = true)
    (hkeys : ∀ key, .add key ∈ calls → key.length = cfg.depth) (he : e ∈ addedBy t calls) :
    EntryOk t cfg e := by
  obtain ⟨c, hc, hce⟩ := List.mem_filterMap.mp he
  cases c with
  | flush => cases hce
  | add key =>
    obtain rfl := Option.some.inj hce
    exact entryOk_makeEntry hb (hkeys key hc)

end Insert

end SynchronousBulkUpdater

open SynchronousBulkUpdater in
/-- Inserting through the updater, if no call adds an entry of the current bulk again after the
de-duplication set was emptied. -/
theorem synchronousInsert_union {calls : List (UpdaterCall K)} (hb : t.isBoolValued = true)
    (hmode : cfg.mode = .insert) (hc : Canonical t ns (⟨cfg.depth, S⟩ ::ₘ rest))
    (hn : NoCollision t (setsInPlay cfg.depth S (addedBy t calls) rest))
    (hkeys : ∀ key, .add key ∈ calls → key.length = cfg.depth)
    (hseen : PendingSeen t cfg (.new (t.ident cfg.depth S) ns) calls) :
    Ensures (run t cfg (.new (t.ident cfg.depth S) ns) calls) (fun u =>
      u.nodec = t.ident cfg.depth (S ∪ (addedBy t calls).toFinset) ∧
        Canonical t u.nodeStorage (⟨cfg.depth, S ∪ (addedBy t calls).toFinset⟩ ::ₘ rest)) := by
  have hadded := fun e he => entryOk_of_mem_addedBy (e := e) hb hkeys he
  have hroots := rootsOk_setsInPlay hb hc.rootsOk hadded
  have hF := hn.inPlay hroots
  obtain ⟨hd, hset⟩ := hc.rootsOk _ (Multiset.mem_cons_self _ _)
  have hstart : ∀ r ∈ ⟨cfg.depth, S⟩ ::ₘ rest, r ∈ setsInPlay cfg.depth S (addedBy t calls) rest :=
    fun r hr => held_mem_setsInPlay List.nil_prefix (by simpa using hr)
  have hend : ∀ r ∈ ⟨cfg.depth, S ∪ (addedBy t calls).toFinset⟩ ::ₘ rest,
      r ∈ setsInPlay cfg.depth S (addedBy t calls) rest :=
    fun r hr => held_mem_setsInPlay List.prefix_rfl hr
  have hnew : SynchronousBulkUpdater.Ok t (Live (setsInPlay cfg.depth S (addedBy t calls) rest)) cfg
      rest (.new (t.ident cfg.depth S) ns) S := by
    refine ⟨rfl, (hc.storageOk (hn.mono hstart)).mono fun hS => hS.mono hstart, hset,
      fun hS => .root (hstart _ (Multiset.mem_cons_self _ _)) hS, List.nodup_nil, ?_, fun id hid => ?_⟩
    · exact fun e he => absurd he List.not_mem_nil
    · simp [SynchronousBulkUpdater.new, contains] at hid
  have hheld : S ∪ (SynchronousBulkUpdater.new (t.ident cfg.depth S) ns).newEntries.toFinset = S :=
    Finset.union_empty S
  have hcalls := calls_spec hb hF hd hmode hnew hkeys hseen
    (fun e he => .root (mem_setsInPlay.mpr (.inr (.inl ⟨e, he, rfl⟩))) (Finset.singleton_nonempty e))
    (by
      rw [hheld]
      exact fun done hdone hne => .root (union_mem_setsInPlay hdone) hne)
  rw [hheld] at hcalls
  refine Ensures.bind hcalls ?_
  rintro u ⟨T, hu, hT⟩
  have hflush := flush_spec hb hF hd hmode hu
  rw [hT] at hflush
  refine (hflush fun hne => .root (union_mem_setsInPlay List.prefix_rfl) hne).mono ?_
  rintro u' ⟨-, hu'⟩
  refine ⟨hu'.nodec, ?_⟩
  have hlive := hu'.storage.live hF fun hS => hS.mono hend
  exact hlive.canonical (hn.mono hend) fun r hr => hroots r (hend r hr)

/-- One entry is inserted for a flush. -/
theorem synchronousInsert_union_two : ∃ ns : NodeStorage AssocMap (BitVec 64) Bool,
    Canonical defaultBoolTrait ns (⟨1, {⟨[4], true⟩}⟩ ::ₘ 0) ∧
      Ensures (SynchronousBulkUpdater.run defaultBoolTrait ⟨.insert, 1, 2⟩
          (.new (defaultBoolTrait.ident 1 {⟨[4], true⟩}) ns) [.add [5], .flush])
        (fun u => Canonical defaultBoolTrait u.nodeStorage
          (⟨1, {⟨[4], true⟩} ∪ [⟨[5], true⟩].toFinset⟩ ::ₘ 0)) := by
  have hr : RootsOk defaultBoolTrait (⟨1, {⟨[4], true⟩}⟩ ::ₘ 0) := by
    intro r hr
    obtain rfl : r = ⟨1, {⟨[4], true⟩}⟩ := by simpa using hr
    exact ⟨by decide, by decide, by decide, by decide⟩
  have hn : NoCollision defaultBoolTrait
      (SynchronousBulkUpdater.setsInPlay 1 {⟨[4], true⟩} [⟨[5], true⟩] 0) :=
    noCollision_of_liveSets (by decide +kernel) (by decide +kernel)
  obtain ⟨ns, hc⟩ := exists_canonical (M := AssocMap) hr
    (hn.mono fun r hr => SynchronousBulkUpdater.held_mem_setsInPlay List.nil_prefix (by simpa using hr))
  have hpending : SynchronousBulkUpdater.PendingSeen defaultBoolTrait ⟨.insert, 1, 2⟩
      (.new (defaultBoolTrait.ident 1 {⟨[4], true⟩}) ns) [.add [5], .flush] := by
    intro before key after u' hcalls hu' hm
    match before, hcalls with
    | [], _ =>
      obtain rfl := Option.some.inj hu'
      exact absurd hm List.not_mem_nil
    | [_], h => simp at h
    | _ :: _ :: _, h => simp at h
  have hrun := synchronousInsert_union rfl rfl hc hn (by simp) hpending
  exact ⟨ns, hc, hrun.mono fun u hu => hu.2⟩

/-- The eighth entry fills the de-duplication set, and is dropped from it while it is pending. -/
theorem synchronousInsert_loses : ∃ nodec ns, ∃ u : SynchronousBulkUpdater AssocMap (BitVec 64) Bool,
    RawHypertrieContext.insert defaultBoolTrait NodeStorage.empty 1 seed
      ([1, 2, 3, 4, 5, 6, 7].map fun k => ⟨[k], true⟩) = some (nodec, ns) ∧
    SynchronousBulkUpdater.run defaultBoolTrait ⟨.insert, 1, 2⟩ (.new nodec ns)
      ([1, 2, 3, 4, 5, 6, 7, 8, 8].map fun k => .add [k]) = some u ∧
      RawHypertrieContext.get defaultBoolTrait u.nodeStorage 1 u.nodec [8] = some false := by
  have hrun : ((RawHypertrieContext.insert (M := AssocMap) defaultBoolTrait NodeStorage.empty 1 seed
      ([1, 2, 3, 4, 5, 6, 7].map fun k => ⟨[k], true⟩)).bind fun (nodec, ns) =>
        (SynchronousBulkUpdater.run defaultBoolTrait ⟨.insert, 1, 2⟩ (.new nodec ns)
          ([1, 2, 3, 4, 5, 6, 7, 8, 8].map fun k => .add [k])).map
          fun u => RawHypertrieContext.get defaultBoolTrait u.nodeStorage 1 u.nodec [8]) =
      some (some false) := by decide +kernel
  obtain ⟨⟨nodec, ns⟩, hinsert, hrun⟩ := Option.bind_eq_some_iff.mp hrun
  obtain ⟨u, hu, hget⟩ := Option.map_eq_some_iff.mp hrun
  exact ⟨nodec, ns, u, hinsert, hu, hget⟩

namespace SynchronousBulkUpdater

section Remove

variable {u : SynchronousBulkUpdater M K V} {calls : List (UpdaterCall K)}

/-- Nothing has been done. -/
structure Untouched (t : HypertrieTrait K V) (ns : NodeStorage M K V) (d : Nat)
    (S : Finset (SingleEntry K V)) (u : SynchronousBulkUpdater M K V) : Prop where
  newEntries : u.newEntries = []
  nodec : u.nodec = t.ident d S
  nodeStorage : u.nodeStorage = ns

omit [DecidableEq V] in
theorem Untouched.flush (hu : Untouched t ns cfg.depth S u) : flush t cfg u = some u := by
  rw [SynchronousBulkUpdater.flush, if_pos hu.newEntries]

/-- An entry that is not there is not removed. -/
theorem Untouched.add (hb : t.isBoolValued = true) (hF : InPlay t F) (hd : 0 < cfg.depth)
    (hmode : cfg.mode = .remove) (hs : StorageOk t F ns (⟨cfg.depth, S⟩ ::ₘ rest))
    (hset : IsEntrySet t cfg.depth S) (hplay : S.Nonempty → F cfg.depth S)
    (hu : Untouched t ns cfg.depth S u) (heOk : EntryOk t cfg e) (he : e ∉ S) :
    Ensures (add t cfg u e) (Untouched t ns cfg.depth S) := by
  rw [SynchronousBulkUpdater.add]
  by_cases hseen : contains u.deDuplication (t.encodeSingleEntry cfg.depth e) = true
  · simp only [hseen, if_true]
    exact Ensures.pure ⟨hu.newEntries, hu.nodec, hu.nodeStorage⟩
  simp only [hseen]
  have hget := hs.get hF hd (Multiset.mem_cons_self _ _) hplay heOk.length
  rw [← hu.nodec, ← hu.nodeStorage] at hget
  refine Ensures.bind hget fun v hv => ?_
  have hchosen := isChosen_iff hb hset heOk hv
  rw [if_neg fun hc => hchosen.mp hc (by rwa [hmode])]
  exact Ensures.pure ⟨hu.newEntries, hu.nodec, hu.nodeStorage⟩

theorem Untouched.foldlM_call (hb : t.isBoolValued = true) (hF : InPlay t F) (hd : 0 < cfg.depth)
    (hmode : cfg.mode = .remove) (hs : StorageOk t F ns (⟨cfg.depth, S⟩ ::ₘ rest))
    (hset : IsEntrySet t cfg.depth S) (hplay : S.Nonempty → F cfg.depth S)
    (hu : Untouched t ns cfg.depth S u) (hkeys : ∀ key, .add key ∈ calls → key.length = cfg.depth)
    (habsent : ∀ e ∈ addedBy t calls, e ∉ S) :
    Ensures (calls.foldlM (call t cfg) u) (Untouched t ns cfg.depth S) := by
  induction calls generalizing u with
  | nil => exact Ensures.pure hu
  | cons c calls ih =>
    rw [List.foldlM_cons]
    rw [addedBy_cons] at habsent
    have hrest {u' : SynchronousBulkUpdater M K V} (hu' : Untouched t ns cfg.depth S u') :=
      ih hu' (fun key hm => hkeys key (List.mem_cons_of_mem _ hm))
        fun e he => habsent e (List.mem_append_right _ he)
    cases c with
    | flush =>
      rw [call, hu.flush]
      exact hrest hu
    | add key =>
      have hl := hkeys key List.mem_cons_self
      rw [call, if_pos hl]
      exact Ensures.bind (hu.add hb hF hd hmode hs hset hplay (entryOk_makeEntry hb hl)
        (habsent _ (List.mem_append_left _ List.mem_cons_self))) fun _ => hrest

end Remove

end SynchronousBulkUpdater

open SynchronousBulkUpdater in
/-- Removing through the updater, if none of the entries is there. -/
theorem synchronousRemove_difference {calls : List (UpdaterCall K)} (hb : t.isBoolValued = true)
    (hmode : cfg.mode = .remove) (hc : Canonical t ns (⟨cfg.depth, S⟩ ::ₘ rest))
    (hn : NoCollision t (⟨cfg.depth, S⟩ ::ₘ rest))
    (hkeys : ∀ key, .add key ∈ calls → key.length = cfg.depth)
    (habsent : ∀ e ∈ addedBy t calls, e ∉ S) :
    Ensures (run t cfg (.new (t.ident cfg.depth S) ns) calls) (fun u =>
      u.nodec = t.ident cfg.depth (S \ (addedBy t calls).toFinset) ∧
        Canonical t u.nodeStorage (⟨cfg.depth, S \ (addedBy t calls).toFinset⟩ ::ₘ rest)) := by
  have hF := hn.inPlay hc.rootsOk
  have hroot := Multiset.mem_cons_self (⟨cfg.depth, S⟩ : Root K V) rest
  obtain ⟨hd, hset⟩ := hc.rootsOk _ hroot
  have hkept : S \ (addedBy t calls).toFinset = S :=
    Finset.sdiff_eq_self_of_disjoint
      (Finset.disjoint_right.mpr fun e he => habsent e (List.mem_toFinset.mp he))
  have hnew : Untouched t ns cfg.depth S (SynchronousBulkUpdater.new (t.ident cfg.depth S) ns) :=
    ⟨rfl, rfl, rfl⟩
  refine Ensures.bind (hnew.foldlM_call hb hF hd hmode (hc.storageOk hn) hset (fun hS => .root hroot hS)
    hkeys habsent) fun u hu => ?_
  rw [hu.flush, hkept]
  exact Ensures.pure ⟨hu.nodec, by rwa [hu.nodeStorage]⟩

/-- Entries that are not there are removed, one of them twice, with a flush in between. -/
theorem synchronousRemove_difference_one : ∃ ns : NodeStorage AssocMap (BitVec 64) Bool,
    Ensures (SynchronousBulkUpdater.run defaultBoolTrait ⟨.remove, 2, 2⟩
        (.new (defaultBoolTrait.ident 2 {⟨[3, 4], true⟩, ⟨[5, 4], true⟩}) ns)
          [.add [3, 5], .add [5, 5], .flush, .add [3, 5]])
      (fun u => u.nodec = defaultBoolTrait.ident 2 ({⟨[3, 4], true⟩, ⟨[5, 4], true⟩} \
          [⟨[3, 5], true⟩, ⟨[5, 5], true⟩, ⟨[3, 5], true⟩].toFinset) ∧
        Canonical defaultBoolTrait u.nodeStorage (⟨2, {⟨[3, 4], true⟩, ⟨[5, 4], true⟩} \
          [⟨[3, 5], true⟩, ⟨[5, 5], true⟩, ⟨[3, 5], true⟩].toFinset⟩ ::ₘ 0)) := by
  have hr : RootsOk defaultBoolTrait (⟨2, {⟨[3, 4], true⟩, ⟨[5, 4], true⟩}⟩ ::ₘ 0) := by
    intro r hr
    obtain rfl : r = ⟨2, {⟨[3, 4], true⟩, ⟨[5, 4], true⟩}⟩ := by simpa using hr
    exact ⟨by decide, by decide, by decide, by decide⟩
  have hn : NoCollision defaultBoolTrait (⟨2, {⟨[3, 4], true⟩, ⟨[5, 4], true⟩}⟩ ::ₘ 0) :=
    noCollision_of_liveSets (by decide +kernel) (by decide +kernel)
  obtain ⟨ns, hc⟩ := exists_canonical (M := AssocMap) hr hn
  have habsent : ∀ e ∈ SynchronousBulkUpdater.addedBy defaultBoolTrait
      [.add [3, 5], .add [5, 5], .flush, .add [3, 5]],
      e ∉ ({⟨[3, 4], true⟩, ⟨[5, 4], true⟩} : Finset (SingleEntry (BitVec 64) Bool)) := by decide
  have hmode : (⟨.remove, 2, 2⟩ : BulkUpdaterSettings).mode = .remove := rfl
  exact ⟨ns, synchronousRemove_difference rfl hmode hc hn (by simp) habsent⟩

/-- An entry that is added to be removed is still there. -/
theorem synchronousRemove_keeps : ∃ nodec ns, ∃ u : SynchronousBulkUpdater AssocMap (BitVec 64) Bool,
    RawHypertrieContext.insert defaultBoolTrait NodeStorage.empty 1 seed
      [⟨[1], true⟩, ⟨[2], true⟩] = some (nodec, ns) ∧
    SynchronousBulkUpdater.run defaultBoolTrait ⟨.remove, 1, 2⟩ (.new nodec ns) [.add [1]] = some u ∧
      RawHypertrieContext.get defaultBoolTrait u.nodeStorage 1 u.nodec [1] = some true := by
  have hrun : ((RawHypertrieContext.insert (M := AssocMap) defaultBoolTrait NodeStorage.empty 1 seed
      [⟨[1], true⟩, ⟨[2], true⟩]).bind fun (nodec, ns) =>
        (SynchronousBulkUpdater.run defaultBoolTrait ⟨.remove, 1, 2⟩ (.new nodec ns) [.add [1]]).map
          fun u => RawHypertrieContext.get defaultBoolTrait u.nodeStorage 1 u.nodec [1]) =
      some (some true) := by decide +kernel
  obtain ⟨⟨nodec, ns⟩, hinsert, hrun⟩ := Option.bind_eq_some_iff.mp hrun
  obtain ⟨u, hu, hget⟩ := Option.map_eq_some_iff.mp hrun
  exact ⟨nodec, ns, u, hinsert, hu, hget⟩

end Hypertrie
