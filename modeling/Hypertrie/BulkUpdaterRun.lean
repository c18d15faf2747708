import Hypertrie.BulkUpdater
import Hypertrie.HandleCount

/-! Interleavings of the producer and the worker. What was read from the queue
is in the current bulk or has been applied; entries get lost if the worker
stops, or resets the flush flag, while there are some in the queue. -/

namespace Hypertrie

open UnorderedMap BulkUpdater

variable {M : Type → Type → Type} [UnorderedMap M] {K V : Type}
variable [DecidableEq K] [DecidableEq V]
variable {t : HypertrieTrait K V} {F : Nat → Finset (SingleEntry K V) → Prop}
variable {cfg : BulkUpdaterSettings} {rest : Multiset (Root K V)} {u u' : BulkUpdater M K V}
  {S T : Finset (SingleEntry K V)} {e : SingleEntry K V} {action : ProducerAction K}

namespace BulkUpdaterMode

variable (mode : BulkUpdaterMode)

/-- The entries there are after some were inserted or removed. -/
def result (S : Finset (SingleEntry K V)) (entries : List (SingleEntry K V)) :
    Finset (SingleEntry K V) :=
  match mode with
  | .insert => S ∪ entries.toFinset
  | .remove => S \ entries.toFinset

/-- Inserting or removing the entry changes nothing. -/
def IsDone (S : Finset (SingleEntry K V)) (e : SingleEntry K V) : Prop :=
  match mode with
  | .insert => e ∈ S
  | .remove => e ∉ S

variable {mode}

@[simp]
theorem result_nil (S : Finset (SingleEntry K V)) : mode.result S [] = S := by
  cases mode <;> simp [result]

theorem result_append (S : Finset (SingleEntry K V)) (entries entries' : List (SingleEntry K V)) :
    mode.result S (entries ++ entries') = mode.result (mode.result S entries) entries' := by
  cases mode with
  | insert => simp [result, Finset.union_assoc]
  | remove => simp [result, sdiff_sdiff_left]

theorem result_of_isDone (h : mode.IsDone S e) : mode.result S [e] = S := by
  cases mode with
  | insert => simpa [result, IsDone] using h
  | remove => simpa [result, IsDone] using h

theorem isDone_result_self (S : Finset (SingleEntry K V)) (e : SingleEntry K V) :
    mode.IsDone (mode.result S [e]) e := by
  cases mode <;> simp [result, IsDone]

theorem IsDone.result {entries : List (SingleEntry K V)} (h : mode.IsDone S e) :
    mode.IsDone (mode.result S entries) e := by
  cases mode with
  | insert => exact Finset.mem_union_left _ h
  | remove => exact fun hm => h (Finset.mem_sdiff.mp hm).1

theorem isDone_of_mem {entries : List (SingleEntry K V)} (h : e ∈ entries) :
    mode.IsDone (mode.result S entries) e := by
  cases mode with
  | insert => exact Finset.mem_union_right _ (List.mem_toFinset.mpr h)
  | remove => exact fun hm => (Finset.mem_sdiff.mp hm).2 (List.mem_toFinset.mpr h)

end BulkUpdaterMode

variable [Inhabited K]

section Invariant

/-- The handle of the updater stands for `T`; `rest` are the other handles of the context. -/
structure HandleOk (t : HypertrieTrait K V) (F : Nat → Finset (SingleEntry K V) → Prop)
    (cfg : BulkUpdaterSettings) (rest : Multiset (Root K V)) (u : BulkUpdater M K V)
    (T : Finset (SingleEntry K V)) : Prop where
  nodec : u.nodec = t.ident cfg.depth T
  storage : StorageOk t F u.nodeStorage (⟨cfg.depth, T⟩ ::ₘ rest)
  entrySet : IsEntrySet t cfg.depth T
  inPlay : T.Nonempty → F cfg.depth T

/-- An entry as `add` passes it to the queue. -/
structure EntryOk (t : HypertrieTrait K V) (cfg : BulkUpdaterSettings) (e : SingleEntry K V) :
    Prop where
  length : e.key.length = cfg.depth
  value : e.value = t.one

/-- The current bulk. What it contains is still to be applied to `T`, and what the de-duplication
set contains needs no other place in the bulk. -/
structure BulkOk (t : HypertrieTrait K V) (F : Nat → Finset (SingleEntry K V) → Prop)
    (cfg : BulkUpdaterSettings) (T : Finset (SingleEntry K V)) (newEntries : List (SingleEntry K V))
    (deDuplication : M RawIdentifier Unit) : Prop where
  nodup : newEntries.Nodup
  entry : ∀ e ∈ newEntries, EntryOk t cfg e ∧ F cfg.depth {e} ∧ ¬ cfg.mode.IsDone T e
  seen : ∀ id, contains deDuplication id = true → ∃ e, F cfg.depth {e} ∧
    t.ident cfg.depth {e} = id ∧ cfg.mode.IsDone (cfg.mode.result T newEntries) e

/-- An updater that was given the set `S`, while its handle stands for `T`: what was added is in
the queue, or in the current bulk, or applied. -/
structure UpdaterOk (t : HypertrieTrait K V) (F : Nat → Finset (SingleEntry K V) → Prop)
    (cfg : BulkUpdaterSettings) (rest : Multiset (Root K V)) (S : Finset (SingleEntry K V))
    (u : BulkUpdater M K V) (T : Finset (SingleEntry K V)) : Prop where
  handle : HandleOk t F cfg rest u T
  bulk : BulkOk t F cfg T u.newEntries u.deDuplication
  queued : ∀ e ∈ u.entryQueue, EntryOk t cfg e
  adding : ∀ e, u.producer = .adding e → EntryOk t cfg e
  accounted : ∃ taken, u.added = taken ++ u.entryQueue ∧
    cfg.mode.result T u.newEntries = cfg.mode.result S taken

/-- The entry that is read next is not in the current bulk without being in the de-duplication
set. -/
def NoRepeat (t : HypertrieTrait K V) (cfg : BulkUpdaterSettings) (u : BulkUpdater M K V) : Prop :=
  u.worker = .reading → ∀ e, u.entryQueue.head? = some e → e ∈ u.newEntries →
    contains u.deDuplication (t.ident cfg.depth {e}) = true

/-- The sets that a step of the worker deals with are in play. -/
structure WorkerInPlay (F : Nat → Finset (SingleEntry K V) → Prop) (cfg : BulkUpdaterSettings)
    (u : BulkUpdater M K V) (T : Finset (SingleEntry K V)) : Prop where
  read : u.worker = .reading → ∀ e, u.entryQueue.head? = some e → F cfg.depth {e}
  applied : u.worker = .applying → (cfg.mode.result T u.newEntries).Nonempty →
    F cfg.depth (cfg.mode.result T u.newEntries)

/-- What the handle stands for after a step of the worker. -/
def heldAfter (cfg : BulkUpdaterSettings) (u : BulkUpdater M K V) (T : Finset (SingleEntry K V)) :
    Finset (SingleEntry K V) :=
  match u.worker with
  | .applying => cfg.mode.result T u.newEntries
  | _ => T

omit [DecidableEq K] [DecidableEq V] [Inhabited K] in
theorem contained_iff (hb : t.isBoolValued = true) (hT : IsEntrySet t cfg.depth T)
    (he : EntryOk t cfg e) {v : V} (hv : ValueAt t T e.key v) : v ≠ t.zero ↔ e ∈ T := by
  obtain ⟨key, value⟩ := e
  have hvalue : value = t.one := he.value
  constructor
  · intro h0
    have hone := HypertrieTrait.eq_one_of_ne_zero hb h0
    rcases hv with hm | ⟨hz, -⟩
    · rwa [hone, ← hvalue] at hm
    · exact absurd hz h0
  · intro hm h0
    rcases hv with hm' | ⟨-, habsent⟩
    · exact hT.value _ hm' h0
    · exact habsent _ hm rfl

omit [Inhabited K] in
/-- An entry is chosen if applying it makes a difference. -/
theorem isChosen_iff (hb : t.isBoolValued = true) (hT : IsEntrySet t cfg.depth T)
    (he : EntryOk t cfg e) {v : V} (hv : ValueAt t T e.key v) :
    isChosen cfg.mode (v ≠ t.zero) = true ↔ ¬ cfg.mode.IsDone T e := by
  have hc := contained_iff hb hT he hv
  unfold isChosen BulkUpdaterMode.IsDone
  cases cfg.mode with
  | insert => simp only [Bool.not_eq_true', decide_eq_false_iff_not, hc]
  | remove => simp only [decide_eq_true_eq, hc, not_not]

theorem contains_emplace (m : M RawIdentifier Unit) (id id' : RawIdentifier) :
    contains (emplace m id ()) id' = true ↔ id' = id ∨ contains m id' = true := by
  unfold emplace
  split
  next h =>
    constructor
    · exact Or.inr
    · rintro (rfl | h')
      · exact h
      · exact h'
  next h =>
    by_cases hid : id' = id
    · simp [contains, hid]
    · simp [contains, find_assign, hid]

omit [DecidableEq K] [DecidableEq V] in
theorem contains_deDuplicate {deDuplication : M RawIdentifier Unit} {newEntries : List (SingleEntry K V)}
    {id id' : RawIdentifier}
    (h : contains (deDuplicate t cfg deDuplication newEntries id) id' = true) :
    id' = id ∨ contains deDuplication id' = true ∨
      ∃ e ∈ newEntries, t.ident cfg.depth {e} = id' := by
  unfold deDuplicate at h
  simp only at h
  split at h
  · have hfold : ∀ (l : List (SingleEntry K V)) (m : M RawIdentifier Unit),
        contains (l.foldl (fun set e => emplace set (t.encodeSingleEntry cfg.depth e) ()) m) id' = true →
          contains m id' = true ∨ ∃ e ∈ l, t.ident cfg.depth {e} = id' := by
      intro l
      induction l with
      | nil => exact fun m hm => Or.inl hm
      | cons a l ih =>
        intro m hm
        rcases ih _ hm with hm | ⟨e, he, hid⟩
        · rcases (contains_emplace _ _ _).mp hm with rfl | hm
          · exact Or.inr ⟨a, List.mem_cons_self, HypertrieTrait.ident_singleton _⟩
          · exact Or.inl hm
        · exact Or.inr ⟨e, List.mem_cons_of_mem _ he, hid⟩
    rcases hfold _ _ h with h | h
    · simp [contains] at h
    · exact Or.inr (Or.inr h)
  · exact ((contains_emplace _ _ _).mp h).imp_right Or.inl

end Invariant

section Worker

omit [Inhabited K] in
theorem result_isEntrySet (hT : IsEntrySet t cfg.depth T) {newEntries : List (SingleEntry K V)}
    (hb : t.isBoolValued = true) (hnew : ∀ e ∈ newEntries, EntryOk t cfg e) :
    IsEntrySet t cfg.depth (cfg.mode.result T newEntries) := by
  cases hmode : cfg.mode with
  | remove => exact hT.subset Finset.sdiff_subset
  | insert =>
    have hone : ∀ e ∈ T ∪ newEntries.toFinset, e.key.length = cfg.depth ∧ e.value = t.one := by
      intro e he
      rcases Finset.mem_union.mp he with he | he
      · exact ⟨hT.length e he, HypertrieTrait.eq_one_of_ne_zero hb (hT.value e he)⟩
      · have hok := hnew e (List.mem_toFinset.mp he)
        exact ⟨hok.length, hok.value⟩
    refine ⟨fun e he => (hone e he).1, fun e he => ?_, fun e he e' he' hk => ?_⟩
    · rw [(hone e he).2]
      exact t.zero_ne_one.symm
    · obtain ⟨key, value⟩ := e
      obtain ⟨key', value'⟩ := e'
      have hv : value = value' := (hone _ he).2.trans (hone _ he').2.symm
      rw [hv, show key = key' from hk]

/-- The current bulk is what the update code requires, and applying it gives the result. -/
theorem applyBulk_spec (hF : InPlay t F) (hd : 0 < cfg.depth)
    (hu : HandleOk t F cfg rest u T) (hbulk : BulkOk t F cfg T u.newEntries u.deDuplication)
    (hF' : (cfg.mode.result T u.newEntries).Nonempty → F cfg.depth (cfg.mode.result T u.newEntries)) :
    Ensures (applyBulk t cfg u) (fun out => out.1 = t.ident cfg.depth (cfg.mode.result T u.newEntries) ∧
      StorageOk t F out.2 (⟨cfg.depth, cfg.mode.result T u.newEntries⟩ ::ₘ rest)) := by
  have hnew := hbulk.entry
  unfold applyBulk
  rw [hu.nodec]
  unfold BulkUpdaterMode.result at hF' ⊢
  unfold BulkUpdaterMode.IsDone at hnew
  cases hmode : cfg.mode with
  | insert =>
    rw [hmode] at hF' hnew
    refine insert_spec hF hd hu.storage hu.inPlay hbulk.nodup ?_ hF'
    rw [Finset.disjoint_left]
    exact fun e he he' => (hnew e (List.mem_toFinset.mp he')).2.2 he
  | remove =>
    rw [hmode] at hF' hnew
    refine remove_spec hF hd hu.storage hu.inPlay hbulk.nodup ?_ hF'
    exact fun e he => not_not.mp (hnew e (List.mem_toFinset.mp he)).2.2

/-- A de-duplication set that goes on with `D`, the current bulk and the entry. -/
theorem BulkOk.seen_of {N N' : List (SingleEntry K V)} {D : M RawIdentifier Unit}
    (hbulk : BulkOk t F cfg T N D) (he : F cfg.depth {e})
    (hkeep : ∀ e', cfg.mode.IsDone (cfg.mode.result T N) e' → cfg.mode.IsDone (cfg.mode.result T N') e')
    (hdone : cfg.mode.IsDone (cfg.mode.result T N') e) {id : RawIdentifier}
    (h : id = t.encodeSingleEntry cfg.depth e ∨ contains D id = true ∨
      ∃ e' ∈ N, t.ident cfg.depth {e'} = id) :
    ∃ e', F cfg.depth {e'} ∧ t.ident cfg.depth {e'} = id ∧
      cfg.mode.IsDone (cfg.mode.result T N') e' := by
  rcases h with rfl | h | ⟨e', he', hid⟩
  · exact ⟨e, he, HypertrieTrait.ident_singleton _, hdone⟩
  · obtain ⟨e', hFe', hid, hd⟩ := hbulk.seen id h
    exact ⟨e', hFe', hid, hkeep e' hd⟩
  · exact ⟨e', (hbulk.entry e' he').2.1, hid, hkeep e' (BulkUpdaterMode.isDone_of_mem he')⟩

/-- An entry that makes no difference is not added to the bulk. -/
theorem BulkOk.skip {N : List (SingleEntry K V)} {D D' : M RawIdentifier Unit}
    (hbulk : BulkOk t F cfg T N D) (he : F cfg.depth {e})
    (hdone : cfg.mode.IsDone (cfg.mode.result T N) e)
    (hD : ∀ id, contains D' id = true → id = t.encodeSingleEntry cfg.depth e ∨
      contains D id = true ∨ ∃ e' ∈ N, t.ident cfg.depth {e'} = id) : BulkOk t F cfg T N D' :=
  ⟨hbulk.nodup, hbulk.entry, fun id hid => hbulk.seen_of he (fun _ h => h) hdone (hD id hid)⟩

/-- An entry that makes a difference is added to the bulk. -/
theorem BulkOk.push {N : List (SingleEntry K V)} {D D' : M RawIdentifier Unit}
    (hbulk : BulkOk t F cfg T N D) (heOk : EntryOk t cfg e) (he : F cfg.depth {e}) (hnot : e ∉ N)
    (hnew : ¬ cfg.mode.IsDone T e)
    (hD : ∀ id, contains D' id = true → id = t.encodeSingleEntry cfg.depth e ∨
      contains D id = true ∨ ∃ e' ∈ N, t.ident cfg.depth {e'} = id) :
    BulkOk t F cfg T (N ++ [e]) D' := by
  have hres := cfg.mode.result_append T N [e]
  refine ⟨?_, fun e' he' => ?_, fun id hid => hbulk.seen_of he (fun e' h => ?_) ?_ (hD id hid)⟩
  · exact List.nodup_append.mpr ⟨hbulk.nodup, List.nodup_singleton e, fun a ha b hb hab =>
      hnot (by rwa [← List.mem_singleton.mp hb, ← hab])⟩
  · rcases List.mem_append.mp he' with he' | he'
    · exact hbulk.entry e' he'
    · rw [List.mem_singleton.mp he']
      exact ⟨heOk, he, hnew⟩
  · rw [hres]
    exact h.result
  · rw [hres]
    exact BulkUpdaterMode.isDone_result_self _ e

/-- An entry whose identifier was seen makes no difference. -/
theorem BulkOk.isDone_of_seen {N : List (SingleEntry K V)} {D : M RawIdentifier Unit}
    (hF : InPlay t F) (hbulk : BulkOk t F cfg T N D) (he : F cfg.depth {e})
    (h : contains D (t.encodeSingleEntry cfg.depth e) = true) :
    cfg.mode.IsDone (cfg.mode.result T N) e := by
  obtain ⟨e', he', hid, hdone⟩ := hbulk.seen _ h
  rw [← HypertrieTrait.ident_singleton] at hid
  rwa [Finset.singleton_injective (hF.ident_inj he' he hid)] at hdone

/-- An entry that was read ends up in the bulk unless it makes no difference. -/
theorem takeEntry_spec (hb : t.isBoolValued = true) (hF : InPlay t F) (hd : 0 < cfg.depth)
    (hu : HandleOk t F cfg rest u T) (hbulk : BulkOk t F cfg T u.newEntries u.deDuplication)
    (heOk : EntryOk t cfg e) (he : F cfg.depth {e})
    (hrepeat : e ∈ u.newEntries → contains u.deDuplication (t.ident cfg.depth {e}) = true) :
    Ensures (takeEntry t cfg u e) (fun u' => ∃ N D,
      u' = { u with newEntries := N, deDuplication := D } ∧ BulkOk t F cfg T N D ∧
      cfg.mode.result T N = cfg.mode.result (cfg.mode.result T u.newEntries) [e]) := by
  unfold takeEntry
  by_cases hseen : contains u.deDuplication (t.encodeSingleEntry cfg.depth e) = true
  · have hdone := hbulk.isDone_of_seen hF he hseen
    rw [if_pos hseen]
    refine Ensures.pure ⟨_, _, rfl, hbulk.skip he hdone fun id => contains_deDuplicate, ?_⟩
    rw [BulkUpdaterMode.result_of_isDone hdone]
  rw [if_neg hseen]
  have hnot : e ∉ u.newEntries := fun hm => hseen (by
    rw [← HypertrieTrait.ident_singleton]
    exact hrepeat hm)
  have hget := hu.storage.get hF hd (Multiset.mem_cons_self _ _) hu.inPlay heOk.length
  rw [← hu.nodec] at hget
  refine Ensures.map (hget.mono fun v hv => ?_)
  have hchosen := isChosen_iff hb hu.entrySet heOk hv
  by_cases hc : isChosen cfg.mode (v ≠ t.zero) = true
  · rw [if_pos hc]
    exact ⟨_, _, rfl, hbulk.push heOk he hnot (hchosen.mp hc) fun id => contains_deDuplicate,
      cfg.mode.result_append T u.newEntries [e]⟩
  · have hdone : cfg.mode.IsDone (cfg.mode.result T u.newEntries) e :=
      (not_not.mp (mt hchosen.mpr hc)).result
    rw [if_neg hc]
    refine ⟨_, _, rfl, hbulk.skip he hdone fun id => contains_deDuplicate, ?_⟩
    rw [BulkUpdaterMode.result_of_isDone hdone]

theorem HandleOk.congr (h : HandleOk t F cfg rest u T) (hn : u'.nodec = u.nodec)
    (hs : u'.nodeStorage = u.nodeStorage) : HandleOk t F cfg rest u' T :=
  ⟨hn.trans h.nodec, hs ▸ h.storage, h.entrySet, h.inPlay⟩

/-- The worker keeps the account of what was added. -/
theorem UpdaterOk.workerStep (hb : t.isBoolValued = true) (hF : InPlay t F) (hd : 0 < cfg.depth)
    (hu : UpdaterOk t F cfg rest S u T) (hrepeat : NoRepeat t cfg u) (hplay : WorkerInPlay F cfg u T) :
    Ensures (u.workerStep t cfg) (fun u' => UpdaterOk t F cfg rest S u' (heldAfter cfg u T)) := by
  obtain ⟨taken, htaken, hresult⟩ := hu.accounted
  have hkeep : ∀ u', u'.nodec = u.nodec → u'.nodeStorage = u.nodeStorage →
      u'.newEntries = u.newEntries → u'.deDuplication = u.deDuplication →
      u'.entryQueue = u.entryQueue → u'.producer = u.producer → u'.added = u.added →
      UpdaterOk t F cfg rest S u' T := by
    intro u' h₁ h₂ h₃ h₄ h₅ h₆ h₇
    refine ⟨hu.handle.congr h₁ h₂, by rw [h₃, h₄]; exact hu.bulk, by rw [h₅]; exact hu.queued,
      by rw [h₆]; exact hu.adding, taken, ?_, ?_⟩
    · rw [h₇, h₅, htaken]
    · rw [h₃, hresult]
  unfold BulkUpdater.workerStep heldAfter
  cases hw : u.worker with
  | bulkStart =>
    refine Ensures.pure ?_
    split
    · exact hkeep _ rfl rfl rfl rfl rfl rfl rfl
    · refine ⟨hu.handle.congr rfl rfl, ⟨hu.bulk.nodup, hu.bulk.entry, fun id hid => ?_⟩, hu.queued,
        hu.adding, taken, htaken, hresult⟩
      simp [contains] at hid
  | bulkLoop =>
    exact Ensures.pure (hkeep _ rfl rfl rfl rfl rfl rfl rfl)
  | reading =>
    cases hq : u.entryQueue with
    | nil => exact Ensures.pure (hkeep _ rfl rfl rfl rfl hq.symm rfl rfl)
    | cons e queue =>
      have heOk : EntryOk t cfg e := hu.queued e (by rw [hq]; exact List.mem_cons_self)
      have hhead : u.entryQueue.head? = some e := by rw [hq]; rfl
      refine (takeEntry_spec (u := { u with entryQueue := queue, worker := .bulkLoop }) hb hF hd
        (hu.handle.congr rfl rfl) hu.bulk heOk (hplay.read hw e hhead)
        (hrepeat hw e hhead)).mono ?_
      rintro _ ⟨N, D, rfl, hbulk, hres⟩
      refine ⟨hu.handle.congr rfl rfl, hbulk, fun e' he' => hu.queued e' ?_, hu.adding,
        taken ++ [e], ?_, ?_⟩
      · rw [hq]
        exact List.mem_cons_of_mem _ he'
      · show u.added = taken ++ [e] ++ queue
        rw [htaken, hq, List.append_assoc]
        rfl
      · rw [BulkUpdaterMode.result_append, ← hresult]
        exact hres
  | checkingStop =>
    refine Ensures.pure ?_
    split <;> exact hkeep _ rfl rfl rfl rfl rfl rfl rfl
  | applying =>
    have hset := result_isEntrySet hu.handle.entrySet hb fun e he => (hu.bulk.entry e he).1
    refine Ensures.map ((applyBulk_spec hF hd hu.handle hu.bulk (hplay.applied hw)).mono ?_)
    rintro ⟨nodec, ns⟩ ⟨hnodec, hns⟩
    refine ⟨⟨hnodec, hns, hset, hplay.applied hw⟩, ⟨List.nodup_nil, fun e he => by simp at he, ?_⟩,
      hu.queued, hu.adding, taken, htaken, ?_⟩
    · intro id hid
      obtain ⟨e, he, heid, hdone⟩ := hu.bulk.seen id hid
      exact ⟨e, he, heid, by rwa [BulkUpdaterMode.result_nil]⟩
    · rw [BulkUpdaterMode.result_nil, hresult]
  | resetFlush =>
    exact Ensures.pure (hkeep _ rfl rfl rfl rfl rfl rfl rfl)
  | exited =>
    exact Ensures.pure hu

/-- The steps of the worker as far as they concern its place in the loop, the flags, the queue and
whether there is a current bulk. -/
inductive WorkerMove : BulkUpdater M K V → BulkUpdater M K V → Prop where
  | leave {u : BulkUpdater M K V} : u.worker = .bulkStart → u.done = true →
      WorkerMove u { u with worker := .exited }
  | startBulk {u : BulkUpdater M K V} : u.worker = .bulkStart → u.done = false →
      WorkerMove u { u with deDuplication := empty, worker := .bulkLoop }
  | goReading {u : BulkUpdater M K V} : u.worker = .bulkLoop →
      WorkerMove u { u with worker := .reading }
  | goApplying {u : BulkUpdater M K V} : u.worker = .bulkLoop →
      WorkerMove u { u with worker := .applying }
  | take {u : BulkUpdater M K V} (e : SingleEntry K V) (queue N : List (SingleEntry K V))
      (D : M RawIdentifier Unit) : u.worker = .reading → u.entryQueue = e :: queue → WorkerMove u
      { u with entryQueue := queue, newEntries := N, deDuplication := D, worker := .bulkLoop }
  | findEmpty {u : BulkUpdater M K V} : u.worker = .reading → u.entryQueue = [] →
      WorkerMove u { u with worker := .checkingStop }
  | seeStop {u : BulkUpdater M K V} : u.worker = .checkingStop → u.stopRequested = true →
      WorkerMove u { u with done := true, worker := .applying }
  | goOn {u : BulkUpdater M K V} : u.worker = .checkingStop → u.stopRequested = false →
      WorkerMove u { u with worker := .bulkLoop }
  | apply {u : BulkUpdater M K V} (nodec : RawIdentifier) (ns : NodeStorage M K V) :
      u.worker = .applying → WorkerMove u
        { u with nodec := nodec, nodeStorage := ns, newEntries := [], worker := .resetFlush }
  | reset {u : BulkUpdater M K V} : u.worker = .resetFlush →
      WorkerMove u { u with pleaseFlush := false, worker := .bulkStart }
  | stay {u : BulkUpdater M K V} : u.worker = .exited → WorkerMove u u

theorem takeEntry_shape (h : takeEntry t cfg u e = some u') :
    ∃ N D, u' = { u with newEntries := N, deDuplication := D } := by
  unfold takeEntry at h
  simp only at h
  split at h
  · exact ⟨_, _, (Option.some.inj h).symm⟩
  · obtain ⟨v, -, rfl⟩ := Option.map_eq_some_iff.mp h
    split
    · exact ⟨_, _, rfl⟩
    · exact ⟨_, _, rfl⟩

theorem workerMove_of_step (h : u.workerStep t cfg = some u') : WorkerMove u u' := by
  rw [BulkUpdater.workerStep.eq_def] at h
  split at h
  next hw =>
    obtain rfl := Option.some.inj h
    split
    next hd => exact .leave hw hd
    next hd => exact .startBulk hw (by simpa using hd)
  next hw =>
    obtain rfl := Option.some.inj h
    split
    · exact .goReading hw
    · exact .goApplying hw
  next hw =>
    split at h
    next e queue hq =>
      obtain ⟨N, D, rfl⟩ := takeEntry_shape h
      exact .take e queue N D hw hq
    next hq =>
      obtain rfl := Option.some.inj h
      exact .findEmpty hw hq
  next hw =>
    obtain rfl := Option.some.inj h
    split
    next hs => exact .seeStop hw hs
    next hs => exact .goOn hw (by simpa using hs)
  next hw =>
    obtain ⟨⟨nodec, ns⟩, -, rfl⟩ := Option.map_eq_some_iff.mp h
    exact .apply nodec ns hw
  next hw =>
    obtain rfl := Option.some.inj h
    exact .reset hw
  next hw =>
    obtain rfl := Option.some.inj h
    exact .stay hw

end Worker

section Producer

/-- The steps of the producer. -/
inductive ProducerMove (t : HypertrieTrait K V) :
    BulkUpdater M K V → ProducerAction K → BulkUpdater M K V → Prop where
  | callAdd {u : BulkUpdater M K V} (key : List K) : u.producer = .idle →
      ProducerMove t u (.callAdd key) { u with producer := .adding (t.makeEntry key t.one) }
  | write {u : BulkUpdater M K V} (e : SingleEntry K V) : u.producer = .adding e →
      ProducerMove t u .tryWrite
        { u with entryQueue := u.entryQueue ++ [e], added := u.added ++ [e], producer := .idle }
  | queueFull {u : BulkUpdater M K V} (e : SingleEntry K V) : u.producer = .adding e →
      ProducerMove t u .tryWrite u
  | callFlush {u : BulkUpdater M K V} : u.producer = .idle →
      ProducerMove t u .callFlush { u with pleaseFlush := true, producer := .flushing }
  | flushPending {u : BulkUpdater M K V} : u.producer = .flushing → u.pleaseFlush = true →
      ProducerMove t u .checkFlush u
  | flushed {u : BulkUpdater M K V} : u.producer = .flushing → u.pleaseFlush = false →
      ProducerMove t u .checkFlush { u with producer := .idle }
  | requestStop {u : BulkUpdater M K V} : u.producer = .idle →
      ProducerMove t u .requestStop { u with stopRequested := true, producer := .joining }
  | joined {u : BulkUpdater M K V} : u.producer = .joining → u.worker = .exited →
      ProducerMove t u .join { u with producer := .destroyed }
  | joining {u : BulkUpdater M K V} : u.producer = .joining → ProducerMove t u .join u

omit [UnorderedMap M] [DecidableEq K] [DecidableEq V] [Inhabited K] in
theorem producerMove_of_step (h : u.producerStep t cfg action = some u') :
    ProducerMove t u action u' := by
  rw [BulkUpdater.producerStep.eq_def] at h
  split at h
  next _ hp =>
    obtain rfl := Option.some.inj h
    exact .callAdd _ hp
  next _ hp =>
    split at h
    · obtain rfl := Option.some.inj h
      exact .write _ hp
    · obtain rfl := Option.some.inj h
      exact .queueFull _ hp
  next _ hp =>
    obtain rfl := Option.some.inj h
    exact .callFlush hp
  next _ hp =>
    obtain rfl := Option.some.inj h
    split
    next hf => exact .flushPending hp hf
    next hf => exact .flushed hp (by simpa using hf)
  next _ hp =>
    obtain rfl := Option.some.inj h
    exact .requestStop hp
  next _ hp =>
    obtain rfl := Option.some.inj h
    split
    next hw => exact .joined hp hw
    next => exact .joining hp
  next => cases h

/-- Keys have the depth of the hypertrie. -/
def ProducerAction.Valid (cfg : BulkUpdaterSettings) : ProducerAction K → Prop
  | .callAdd key => key.length = cfg.depth
  | _ => True

theorem UpdaterOk.producerStep (hb : t.isBoolValued = true) (hu : UpdaterOk t F cfg rest S u T)
    (ha : action.Valid cfg) (h : u.producerStep t cfg action = some u') :
    UpdaterOk t F cfg rest S u' T := by
  obtain ⟨taken, htaken, hresult⟩ := hu.accounted
  have hcontrol : ∀ (producer : ProducerState K V) (pleaseFlush stopRequested : Bool),
      (∀ e, producer ≠ .adding e) →
      UpdaterOk t F cfg rest S
        { u with producer := producer, pleaseFlush := pleaseFlush, stopRequested := stopRequested } T :=
    fun producer _ _ hp => ⟨hu.handle.congr rfl rfl, hu.bulk, hu.queued,
      fun e he => absurd he (hp e), taken, htaken, hresult⟩
  cases producerMove_of_step h with
  | callAdd key hp =>
    refine ⟨hu.handle.congr rfl rfl, hu.bulk, hu.queued, fun e he => ?_, taken, htaken, hresult⟩
    obtain rfl := ProducerState.adding.inj he
    exact ⟨ha, by simp [HypertrieTrait.makeEntry, hb]⟩
  | write e hp =>
    refine ⟨hu.handle.congr rfl rfl, hu.bulk, fun e' he' => ?_, fun e' he' => by simp at he',
      taken, ?_, hresult⟩
    · rcases List.mem_append.mp he' with he' | he'
      · exact hu.queued e' he'
      · rw [List.mem_singleton.mp he']
        exact hu.adding e hp
    · show u.added ++ [e] = taken ++ (u.entryQueue ++ [e])
      rw [htaken, List.append_assoc]
  | queueFull e hp => exact hu
  | callFlush hp => exact hcontrol .flushing true u.stopRequested (by simp)
  | flushPending hp hf => exact hu
  | flushed hp hf => exact hcontrol .idle u.pleaseFlush u.stopRequested (by simp)
  | requestStop hp => exact hcontrol .joining u.pleaseFlush true (by simp)
  | joined hp hw =>
    exact hcontrol .destroyed u.pleaseFlush u.stopRequested (by simp)
  | joining hp => exact hu

end Producer

section Interleaving

/-- The states of an updater for a handle of the set `S`, in any order of the steps of its
producer and its worker, and what the handle stands for. `cond` is asked for where the worker
makes a step. -/
inductive Interleaved (t : HypertrieTrait K V) (F : Nat → Finset (SingleEntry K V) → Prop)
    (cfg : BulkUpdaterSettings) (rest : Multiset (Root K V)) (S : Finset (SingleEntry K V))
    (cond : BulkUpdater M K V → Prop) : BulkUpdater M K V → Finset (SingleEntry K V) → Prop where
  | start (nodec : RawIdentifier) (ns : NodeStorage M K V) :
      HandleOk t F cfg rest (BulkUpdater.new nodec ns) S →
      Interleaved t F cfg rest S cond (BulkUpdater.new nodec ns) S
  | producer {u u' : BulkUpdater M K V} {T : Finset (SingleEntry K V)} (action : ProducerAction K) :
      Interleaved t F cfg rest S cond u T → action.Valid cfg → u.producerStep t cfg action = some u' →
      Interleaved t F cfg rest S cond u' T
  | worker {u u' : BulkUpdater M K V} {T : Finset (SingleEntry K V)} :
      Interleaved t F cfg rest S cond u T → NoRepeat t cfg u → WorkerInPlay F cfg u T → cond u →
      u.workerStep t cfg = some u' → Interleaved t F cfg rest S cond u' (heldAfter cfg u T)

variable {cond : BulkUpdater M K V → Prop}

theorem Interleaved.updaterOk (hb : t.isBoolValued = true) (hF : InPlay t F) (hd : 0 < cfg.depth)
    (h : Interleaved t F cfg rest S cond u T) : UpdaterOk t F cfg rest S u T := by
  induction h with
  | start nodec ns hstart =>
    refine ⟨hstart, ⟨List.nodup_nil, ?_, fun id hid => ?_⟩, ?_, ?_, [], rfl, rfl⟩
    · exact fun e he => absurd he List.not_mem_nil
    · simp [BulkUpdater.new, contains] at hid
    · exact fun e he => absurd he List.not_mem_nil
    · exact fun e he => by simp [BulkUpdater.new] at he
  | producer action _ ha hstep ih => exact ih.producerStep hb ha hstep
  | worker _ hrepeat hplay _ hstep ih =>
    obtain ⟨u'', hstep', hok⟩ := ih.workerStep hb hF hd hrepeat hplay
    rw [hstep, Option.some.injEq] at hstep'
    rwa [hstep']

/-- The worker sees the stop request only when the queue is empty. -/
def StopsWhenEmpty (u : BulkUpdater M K V) : Prop :=
  u.worker = .checkingStop → u.stopRequested = true → u.entryQueue = []

/-- The worker resets a flush flag that is set only when the queue is empty. -/
def ResetsWhenEmpty (u : BulkUpdater M K V) : Prop :=
  u.worker = .resetFlush → u.pleaseFlush = true → u.entryQueue = []

/-- Between bulks there is nothing to apply. -/
def BulkDone (u : BulkUpdater M K V) : Prop :=
  u.worker = .resetFlush ∨ u.worker = .bulkStart ∨ u.worker = .exited → u.newEntries = []

theorem Interleaved.bulkDone (h : Interleaved t F cfg rest S cond u T) : BulkDone u := by
  induction h with
  | start => exact fun _ => rfl
  | producer _ _ _ hstep ih => cases producerMove_of_step hstep <;> exact ih
  | worker _ _ _ _ hstep ih =>
    unfold BulkDone at ih ⊢
    cases workerMove_of_step hstep with
    | apply => exact fun _ => rfl
    | leave hw hd => exact fun _ => ih (Or.inr (Or.inl hw))
    | reset hw => exact fun _ => ih (Or.inl hw)
    | stay hw => exact ih
    | _ => simp

/-- How the end of a run is reached. -/
structure Stopping (u : BulkUpdater M K V) : Prop where
  requested : u.stopRequested = true → u.producer = .joining ∨ u.producer = .destroyed
  done : u.done = true → u.stopRequested = true ∧ u.entryQueue = [] ∧ u.worker ≠ .bulkLoop ∧
    u.worker ≠ .reading ∧ u.worker ≠ .checkingStop
  exited : u.worker = .exited → u.done = true
  destroyed : u.producer = .destroyed → u.worker = .exited

theorem Interleaved.stopping (h : Interleaved t F cfg rest S StopsWhenEmpty u T) : Stopping u := by
  induction h with
  | start => constructor <;> simp [BulkUpdater.new]
  | producer _ _ _ hstep ih =>
    obtain ⟨hreq, hdone, hexit, hdest⟩ := ih
    cases producerMove_of_step hstep with
    | queueFull => exact ⟨hreq, hdone, hexit, hdest⟩
    | flushPending => exact ⟨hreq, hdone, hexit, hdest⟩
    | joining => exact ⟨hreq, hdone, hexit, hdest⟩
    | requestStop hp =>
      refine ⟨fun _ => Or.inl rfl, fun hd => ?_, hexit, by simp⟩
      exact absurd (hreq (hdone hd).1) (by simp [hp])
    | joined hp hw => exact ⟨fun _ => Or.inr rfl, hdone, hexit, fun _ => hw⟩
    | write e hp =>
      refine ⟨fun h => ?_, fun hd => ?_, hexit, by simp⟩
      · exact absurd (hreq h) (by simp [hp])
      · exact absurd (hreq (hdone hd).1) (by simp [hp])
    | callAdd key hp =>
      exact ⟨fun h => absurd (hreq h) (by simp [hp]), hdone, hexit, by simp⟩
    | callFlush hp =>
      exact ⟨fun h => absurd (hreq h) (by simp [hp]), hdone, hexit, by simp⟩
    | flushed hp hf =>
      exact ⟨fun h => absurd (hreq h) (by simp [hp]), hdone, hexit, by simp⟩
  | @worker u _ _ _ _ _ hcond hstep ih =>
    obtain ⟨hreq, hdone, hexit, hdest⟩ := ih
    -- a worker that still makes steps has not been joined
    have hjoined : ∀ {w : WorkerState}, u.worker = w → w ≠ .exited → ∀ {P : Prop},
        u.producer = .destroyed → P := fun hw hne _ hp => absurd (hw.symm.trans (hdest hp)) hne
    cases workerMove_of_step hstep with
    | leave hw hd => exact ⟨hreq, fun h => ⟨(hdone h).1, (hdone h).2.1, by simp⟩, fun _ => hd, fun _ => rfl⟩
    | startBulk hw hd => exact ⟨hreq, by simp [hd], by simp, hjoined hw (by simp)⟩
    | goReading hw => exact ⟨hreq, fun h => absurd hw (hdone h).2.2.1, by simp, hjoined hw (by simp)⟩
    | goApplying hw => exact ⟨hreq, fun h => absurd hw (hdone h).2.2.1, by simp, hjoined hw (by simp)⟩
    | take e queue N D hw hq =>
      exact ⟨hreq, fun h => absurd hw (hdone h).2.2.2.1, by simp, hjoined hw (by simp)⟩
    | findEmpty hw hq =>
      exact ⟨hreq, fun h => absurd hw (hdone h).2.2.2.1, by simp, hjoined hw (by simp)⟩
    | seeStop hw hs =>
      exact ⟨hreq, fun _ => ⟨hs, hcond hw hs, by simp⟩, by simp, hjoined hw (by simp)⟩
    | goOn hw hs => exact ⟨hreq, fun h => absurd hw (hdone h).2.2.2.2, by simp, hjoined hw (by simp)⟩
    | apply nodec ns hw =>
      exact ⟨hreq, fun h => ⟨(hdone h).1, (hdone h).2.1, by simp⟩, by simp, hjoined hw (by simp)⟩
    | reset hw =>
      exact ⟨hreq, fun h => ⟨(hdone h).1, (hdone h).2.1, by simp⟩, by simp, hjoined hw (by simp)⟩
    | stay hw => exact ⟨hreq, hdone, hexit, hdest⟩

/-- The steps of a worker that meets the conditions do not get stuck. -/
theorem Interleaved.workerStep_succeeds (hb : t.isBoolValued = true) (hF : InPlay t F)
    (hd : 0 < cfg.depth) (h : Interleaved t F cfg rest S cond u T) (hrepeat : NoRepeat t cfg u)
    (hplay : WorkerInPlay F cfg u T) : ∃ u', u.workerStep t cfg = some u' := by
  obtain ⟨u', hstep, -⟩ := (h.updaterOk hb hF hd).workerStep hb hF hd hrepeat hplay
  exact ⟨u', hstep⟩

/-- With nothing in the queue and in the current bulk everything that was added is applied. -/
theorem UpdaterOk.applied (hu : UpdaterOk t F cfg rest S u T) (hq : u.entryQueue = [])
    (hn : u.newEntries = []) : HandleOk t F cfg rest u (cfg.mode.result S u.added) := by
  obtain ⟨taken, htaken, hresult⟩ := hu.accounted
  rw [hn, BulkUpdaterMode.result_nil] at hresult
  rw [htaken, hq, List.append_nil, ← hresult]
  exact hu.handle

/-- When the destructor returns everything that was added is applied, if the worker sees the stop
request only when the queue is empty. -/
theorem destroyed_applied (hb : t.isBoolValued = true) (hF : InPlay t F) (hd : 0 < cfg.depth)
    (h : Interleaved t F cfg rest S StopsWhenEmpty u T) :
    (u.producer = .destroyed → HandleOk t F cfg rest u (cfg.mode.result S u.added)) ∧
      (NoRepeat t cfg u → WorkerInPlay F cfg u T → ∃ u', u.workerStep t cfg = some u') := by
  refine ⟨fun hp => ?_, h.workerStep_succeeds hb hF hd⟩
  have hstop := h.stopping
  have hexit := hstop.destroyed hp
  exact (h.updaterOk hb hF hd).applied (hstop.done (hstop.exited hexit)).2.1
    (h.bulkDone (Or.inr (Or.inr hexit)))

/-- The current bulk is at any time, so also when it is applied, what `insert` or `remove` requires
of its entries. -/
theorem bulks_wellFormed (hb : t.isBoolValued = true) (hF : InPlay t F) (hd : 0 < cfg.depth)
    (h : Interleaved t F cfg rest S cond u T) :
    HandleOk t F cfg rest u T ∧ u.newEntries.Nodup ∧
      (cfg.mode = .insert → Disjoint T u.newEntries.toFinset) ∧
      (cfg.mode = .remove → u.newEntries.toFinset ⊆ T) := by
  have hu := h.updaterOk hb hF hd
  have hnew : ∀ e ∈ u.newEntries, ¬ cfg.mode.IsDone T e := fun e he => (hu.bulk.entry e he).2.2
  refine ⟨hu.handle, hu.bulk.nodup, fun hmode => ?_, fun hmode => ?_⟩
  · rw [hmode] at hnew
    exact Finset.disjoint_right.mpr fun e he => hnew e (List.mem_toFinset.mp he)
  · rw [hmode] at hnew
    exact fun e he => not_not.mp (hnew e (List.mem_toFinset.mp he))

/-- A flush under way. -/
structure Flushing (u : BulkUpdater M K V) : Prop where
  flag : u.pleaseFlush = true → u.producer = .flushing
  flushed : u.producer = .flushing → u.pleaseFlush = false → u.entryQueue = [] ∧ u.newEntries = []

theorem Interleaved.flushing (h : Interleaved t F cfg rest S ResetsWhenEmpty u T) : Flushing u := by
  induction h with
  | start => constructor <;> simp [BulkUpdater.new]
  | producer _ _ _ hstep ih =>
    obtain ⟨hflag, hflushed⟩ := ih
    cases producerMove_of_step hstep with
    | queueFull => exact ⟨hflag, hflushed⟩
    | flushPending => exact ⟨hflag, hflushed⟩
    | joining => exact ⟨hflag, hflushed⟩
    | callFlush hp => exact ⟨fun _ => rfl, by simp⟩
    | flushed hp hf => exact ⟨by simp [hf], by simp⟩
    | callAdd key hp => exact ⟨fun h => absurd (hflag h) (by simp [hp]), by simp⟩
    | write e hp => exact ⟨fun h => absurd (hflag h) (by simp [hp]), by simp⟩
    | requestStop hp => exact ⟨fun h => absurd (hflag h) (by simp [hp]), by simp⟩
    | joined hp hw => exact ⟨fun h => absurd (hflag h) (by simp [hp]), by simp⟩
  | @worker u _ _ hprev _ _ hcond hstep ih =>
    have hbulk := hprev.bulkDone
    obtain ⟨hflag, hflushed⟩ := ih
    cases workerMove_of_step hstep with
    | take e queue N D hw hq =>
      refine ⟨hflag, fun hp hf => ?_⟩
      have hnil := (hflushed hp hf).1
      rw [hq] at hnil
      cases hnil
    | reset hw =>
      refine ⟨by simp, fun hp _ => ?_⟩
      by_cases hf : u.pleaseFlush = true
      · exact ⟨hcond hw hf, hbulk (Or.inl hw)⟩
      · exact hflushed hp (by simpa using hf)
    | apply nodec ns hw => exact ⟨hflag, fun hp hf => ⟨(hflushed hp hf).1, rfl⟩⟩
    | _ => exact ⟨hflag, hflushed⟩

/-- When `flush` returns everything that was added is applied, if the worker resets the flag only
when the queue is empty. -/
theorem flush_applied (hb : t.isBoolValued = true) (hF : InPlay t F) (hd : 0 < cfg.depth)
    (h : Interleaved t F cfg rest S ResetsWhenEmpty u T) :
    (u.producer = .flushing → u.pleaseFlush = false →
        HandleOk t F cfg rest u T ∧ ∀ e ∈ u.added, cfg.mode.IsDone T e) ∧
      (NoRepeat t cfg u → WorkerInPlay F cfg u T → ∃ u', u.workerStep t cfg = some u') := by
  refine ⟨fun hp hf => ?_, h.workerStep_succeeds hb hF hd⟩
  have hu := h.updaterOk hb hF hd
  obtain ⟨hq, hn⟩ := h.flushing.flushed hp hf
  obtain ⟨taken, htaken, hresult⟩ := hu.accounted
  refine ⟨hu.handle, fun e he => ?_⟩
  rw [hn, BulkUpdaterMode.result_nil] at hresult
  rw [htaken, hq, List.append_nil] at he
  rw [hresult]
  exact BulkUpdaterMode.isDone_of_mem he

end Interleaving

section Runs

/-- Steps in a given order, those of the worker as `none`. -/
def runUpdater (t : HypertrieTrait K V) (cfg : BulkUpdaterSettings) (u : BulkUpdater M K V)
    (steps : List (Option (ProducerAction K))) : Option (BulkUpdater M K V) :=
  steps.foldlM (fun u step =>
    match step with
    | none => u.workerStep t cfg
    | some action => u.producerStep t cfg action) u

instance : DecidablePred (StopsWhenEmpty (M := M) (K := K) (V := V)) :=
  fun u => inferInstanceAs (Decidable (u.worker = .checkingStop → u.stopRequested = true → u.entryQueue = []))

instance : DecidablePred (ResetsWhenEmpty (M := M) (K := K) (V := V)) :=
  fun u => inferInstanceAs (Decidable (u.worker = .resetFlush → u.pleaseFlush = true → u.entryQueue = []))

/-- A step of the worker is asked for what keeps it in play. -/
def CheckedStep (t : HypertrieTrait K V) (cfg : BulkUpdaterSettings) (roots : Multiset (Root K V))
    (u : BulkUpdater M K V) (T : Finset (SingleEntry K V)) : Prop :=
  (u.worker = .reading → ∀ e ∈ u.entryQueue.head?, ⟨cfg.depth, {e}⟩ ∈ roots ∧
    (e ∈ u.newEntries → contains u.deDuplication (t.ident cfg.depth {e}) = true)) ∧
  (u.worker = .applying → ⟨cfg.depth, cfg.mode.result T u.newEntries⟩ ∈ roots)

instance (roots : Multiset (Root K V)) (u : BulkUpdater M K V) (T : Finset (SingleEntry K V)) :
    Decidable (CheckedStep t cfg roots u T) := inferInstanceAs (Decidable (_ ∧ _))

instance (action : ProducerAction K) : Decidable (action.Valid cfg) :=
  match action with
  | .callAdd key => inferInstanceAs (Decidable (key.length = cfg.depth))
  | .tryWrite | .callFlush | .checkFlush | .requestStop | .join => .isTrue trivial

/-- A step of such a run, together with what the handle stands for. -/
def checkedStep (t : HypertrieTrait K V) (cfg : BulkUpdaterSettings) (roots : Multiset (Root K V))
    (cond : BulkUpdater M K V → Prop) [DecidablePred cond]
    (p : BulkUpdater M K V × Finset (SingleEntry K V)) :
    Option (ProducerAction K) → Option (BulkUpdater M K V × Finset (SingleEntry K V))
  | some action => if action.Valid cfg then (p.1.producerStep t cfg action).map (·, p.2) else none
  | none =>
    if CheckedStep t cfg roots p.1 p.2 ∧ cond p.1 then
      (p.1.workerStep t cfg).map (·, heldAfter cfg p.1 p.2)
    else none

theorem Interleaved.checkedRun {roots : Multiset (Root K V)} {steps : List (Option (ProducerAction K))}
    {cond : BulkUpdater M K V → Prop} [DecidablePred cond] {T' : Finset (SingleEntry K V)}
    (h : Interleaved t (Live roots) cfg rest S cond u T)
    (hrun : steps.foldlM (checkedStep t cfg roots cond) (u, T) = some (u', T')) :
    Interleaved t (Live roots) cfg rest S cond u' T' := by
  induction steps generalizing u T with
  | nil =>
    obtain ⟨rfl, rfl⟩ := Prod.mk.inj (Option.some.inj hrun)
    exact h
  | cons step steps ih =>
    rw [List.foldlM_cons] at hrun
    obtain ⟨⟨u₁, T₁⟩, hstep, hrest⟩ := Option.bind_eq_some_iff.mp hrun
    refine ih ?_ hrest
    cases step with
    | some action =>
      obtain ⟨hvalid, hstep⟩ := Option.ite_none_right_eq_some.mp hstep
      obtain ⟨u₂, hu, heq⟩ := Option.map_eq_some_iff.mp hstep
      obtain ⟨rfl, rfl⟩ := Prod.mk.inj heq
      exact h.producer action hvalid hu
    | none =>
      obtain ⟨⟨⟨hread, happlied⟩, hcond⟩, hstep⟩ := Option.ite_none_right_eq_some.mp hstep
      obtain ⟨u₂, hu, heq⟩ := Option.map_eq_some_iff.mp hstep
      obtain ⟨rfl, rfl⟩ := Prod.mk.inj heq
      exact h.worker (fun hw e he => (hread hw e he).2)
        ⟨fun hw e he => .root (hread hw e he).1 (Finset.singleton_nonempty e),
          fun hw hne => .root (happlied hw) hne⟩ hcond hu

/-- The steps by which the entries with these keys are added and each is read at once. -/
def addAndRead (keys : List (List (BitVec 64))) : List (Option (ProducerAction (BitVec 64))) :=
  keys.flatMap fun key => [some (.callAdd key), some .tryWrite, none, none]

/-- The sets in play when two entries are inserted, and then a third one. -/
def insertedRoots : Multiset (Root (BitVec 64) Bool) :=
  {⟨1, {⟨[5], true⟩}⟩, ⟨1, {⟨[6], true⟩}⟩, ⟨1, {⟨[7], true⟩}⟩, ⟨1, {⟨[5], true⟩, ⟨[6], true⟩}⟩,
    ⟨1, {⟨[5], true⟩, ⟨[6], true⟩, ⟨[7], true⟩}⟩}

theorem insertedRoots_inPlay : InPlay defaultBoolTrait (Live insertedRoots) := by
  refine (noCollision_of_liveSets (by decide +kernel) (by decide +kernel)).inPlay fun r hr => ?_
  simp only [insertedRoots, Multiset.insert_eq_cons, Multiset.mem_cons, Multiset.mem_singleton] at hr
  rcases hr with rfl | rfl | rfl | rfl | rfl <;> exact ⟨by decide, by decide, by decide, by decide⟩

/-- A checked run of an updater for an empty hypertrie. -/
theorem exists_interleaved (cond : BulkUpdater AssocMap (BitVec 64) Bool → Prop) [DecidablePred cond]
    (steps : List (Option (ProducerAction (BitVec 64))))
    (p : BulkUpdater AssocMap (BitVec 64) Bool × Finset (SingleEntry (BitVec 64) Bool) → Prop)
    [DecidablePred p]
    (h : (steps.foldlM (checkedStep defaultBoolTrait ⟨.insert, 1, 2⟩ insertedRoots cond)
      (BulkUpdater.new seed NodeStorage.empty, ∅)).any (fun res => decide (p res)) = true) :
    ∃ u T, Interleaved defaultBoolTrait (Live insertedRoots) ⟨.insert, 1, 2⟩ 0 ∅ cond u T ∧ p (u, T) := by
  have hstart : HandleOk defaultBoolTrait (Live insertedRoots) ⟨.insert, 1, 2⟩ 0
      (BulkUpdater.new (M := AssocMap) seed NodeStorage.empty) ∅ :=
    ⟨HypertrieTrait.ident_empty.symm,
      storageOk_empty.congr_roots fun d id _ => rootCount_cons_empty d id,
      IsEntrySet.empty _ _, fun h => by simp at h⟩
  obtain ⟨⟨u, T⟩, hrun, hp⟩ := (Option.any_eq_true _ _).mp h
  exact ⟨u, T, (Interleaved.start _ _ hstart).checkedRun hrun, of_decide_eq_true hp⟩

/-- Two entries are inserted, one of them added twice. A third one is read after the stop request,
and applied before the destructor returns. -/
theorem destroyed_applied_one : ∃ u : BulkUpdater AssocMap (BitVec 64) Bool,
    u.producer = .destroyed ∧ u.added = [⟨[5], true⟩, ⟨[5], true⟩, ⟨[6], true⟩, ⟨[7], true⟩] ∧
      HandleOk defaultBoolTrait (Live insertedRoots) ⟨.insert, 1, 2⟩ 0 u
        {⟨[5], true⟩, ⟨[6], true⟩, ⟨[7], true⟩} := by
  obtain ⟨u, T, hrun, hdestroyed, hadded⟩ := exists_interleaved StopsWhenEmpty
    (none :: addAndRead [[5], [5], [6]] ++ [none, none, none, none, some (.callAdd [7]),
      some .tryWrite, some .requestStop, none, none, none, none, none, none, none, none, some .join])
    (fun res => res.1.producer = .destroyed ∧
      res.1.added = [⟨[5], true⟩, ⟨[5], true⟩, ⟨[6], true⟩, ⟨[7], true⟩]) (by decide +kernel)
  have hheld := (destroyed_applied rfl insertedRoots_inPlay Nat.one_pos hrun).1 hdestroyed
  rw [hadded] at hheld
  exact ⟨u, hdestroyed, hadded, hheld⟩

/-- An entry that is written between the last read and the check for the stop request is lost. -/
theorem destroyed_loses : ∃ u : BulkUpdater AssocMap (BitVec 64) Bool,
    runUpdater defaultBoolTrait ⟨.insert, 1, 2⟩ (.new seed NodeStorage.empty)
      [none, none, none, some (.callAdd [5]), some .tryWrite, some .requestStop, none, none, none,
        none, some .join] = some u ∧
      u.producer = .destroyed ∧ u.added = [⟨[5], true⟩] ∧
      RawHypertrieContext.get defaultBoolTrait u.nodeStorage 1 u.nodec [5] = some false := by
  have hrun : (runUpdater (M := AssocMap) defaultBoolTrait ⟨.insert, 1, 2⟩
      (.new seed NodeStorage.empty) [none, none, none, some (.callAdd [5]), some .tryWrite,
        some .requestStop, none, none, none, none, some .join]).map (fun u => (u.producer, u.added,
          RawHypertrieContext.get defaultBoolTrait u.nodeStorage 1 u.nodec [5])) =
      some (.destroyed, [⟨[5], true⟩], some false) := by decide +kernel
  obtain ⟨u, hu, hend⟩ := Option.map_eq_some_iff.mp hrun
  simp only [Prod.mk.injEq] at hend
  exact ⟨u, hu, hend⟩

/-- Two entries are inserted, and a third one for a flush before it returns. -/
theorem flush_applied_one : ∃ u : BulkUpdater AssocMap (BitVec 64) Bool, ∃ T,
    u.producer = .flushing ∧ u.pleaseFlush = false ∧
      HandleOk defaultBoolTrait (Live insertedRoots) ⟨.insert, 1, 2⟩ 0 u T ∧
      ∀ e ∈ [⟨[5], true⟩, ⟨[6], true⟩, ⟨[6], true⟩, ⟨[7], true⟩], BulkUpdaterMode.insert.IsDone T e := by
  obtain ⟨u, T, hrun, hflushing, hflag, hadded⟩ := exists_interleaved ResetsWhenEmpty
    (none :: addAndRead [[5], [6]] ++ [none, none, none, none] ++ addAndRead [[6], [7]] ++
      [some .callFlush, none, none, none])
    (fun res => res.1.producer = .flushing ∧ res.1.pleaseFlush = false ∧
      res.1.added = [⟨[5], true⟩, ⟨[6], true⟩, ⟨[6], true⟩, ⟨[7], true⟩]) (by decide +kernel)
  obtain ⟨hhandle, hdone⟩ :=
    (flush_applied rfl insertedRoots_inPlay Nat.one_pos hrun).1 hflushing hflag
  exact ⟨u, T, hflushing, hflag, hhandle, hadded ▸ hdone⟩

/-- The second bulk when it is applied: of two entries read for it, one was inserted before. -/
theorem bulks_wellFormed_one : ∃ u : BulkUpdater AssocMap (BitVec 64) Bool, ∃ T,
    u.worker = .applying ∧ u.newEntries = [⟨[7], true⟩] ∧ T = {⟨[5], true⟩, ⟨[6], true⟩} ∧
      HandleOk defaultBoolTrait (Live insertedRoots) ⟨.insert, 1, 2⟩ 0 u T ∧
      u.newEntries.Nodup ∧ Disjoint T u.newEntries.toFinset := by
  obtain ⟨u, T, hrun, happlying, hnew, hheld⟩ := exists_interleaved (fun _ => True)
    (none :: addAndRead [[5], [5], [6]] ++ [none, none, none, none] ++
      addAndRead [[6], [7]] ++ [some .callFlush, none])
    (fun res => res.1.worker = .applying ∧ res.1.newEntries = [⟨[7], true⟩] ∧
      res.2 = {⟨[5], true⟩, ⟨[6], true⟩}) (by decide +kernel)
  obtain ⟨hhandle, hnodup, hdisj, -⟩ := bulks_wellFormed rfl insertedRoots_inPlay Nat.one_pos hrun
  exact ⟨u, T, happlying, hnew, hheld, hhandle, hnodup, hdisj rfl⟩

/-- The eighth entry fills the de-duplication set, and is dropped from it when it is chosen. -/
theorem bulk_repeats : ∃ nodec ns, ∃ u : BulkUpdater AssocMap (BitVec 64) Bool,
    RawHypertrieContext.insert defaultBoolTrait NodeStorage.empty 1 seed
      ([1, 2, 3, 4, 5, 6, 7].map fun k => ⟨[k], true⟩) = some (nodec, ns) ∧
    runUpdater defaultBoolTrait ⟨.insert, 1, 2⟩ (.new nodec ns)
      (none :: addAndRead [[1], [2], [3], [4], [5], [6], [7], [8], [8]] ++ [none]) = some u ∧
      u.worker = .applying ∧ u.newEntries = [⟨[8], true⟩, ⟨[8], true⟩] := by
  have hrun : ((RawHypertrieContext.insert (M := AssocMap) defaultBoolTrait NodeStorage.empty 1 seed
      ([1, 2, 3, 4, 5, 6, 7].map fun k => ⟨[k], true⟩)).bind fun (nodec, ns) =>
        (runUpdater defaultBoolTrait ⟨.insert, 1, 2⟩ (.new nodec ns)
          (none :: addAndRead [[1], [2], [3], [4], [5], [6], [7], [8], [8]] ++ [none])).map
          fun u => (u.worker, u.newEntries)) =
      some (.applying, [⟨[8], true⟩, ⟨[8], true⟩]) := by decide +kernel
  obtain ⟨⟨nodec, ns⟩, hinsert, hrun⟩ := Option.bind_eq_some_iff.mp hrun
  obtain ⟨u, hu, hend⟩ := Option.map_eq_some_iff.mp hrun
  simp only [Prod.mk.injEq] at hend
  exact ⟨nodec, ns, u, hinsert, hu, hend⟩

/-- A flush called while an entry is in the queue returns before the entry is applied. -/
theorem flush_overtakes : ∃ u : BulkUpdater AssocMap (BitVec 64) Bool,
    runUpdater defaultBoolTrait ⟨.insert, 1, 2⟩ (.new seed NodeStorage.empty)
      [some (.callAdd [5]), some .tryWrite, some .callFlush, none, none, none, none] = some u ∧
      u.producer = .flushing ∧ u.pleaseFlush = false ∧ u.added = [⟨[5], true⟩] ∧
      RawHypertrieContext.get defaultBoolTrait u.nodeStorage 1 u.nodec [5] = some false := by
  have hrun : (runUpdater (M := AssocMap) defaultBoolTrait ⟨.insert, 1, 2⟩
      (.new seed NodeStorage.empty) [some (.callAdd [5]), some .tryWrite, some .callFlush, none, none,
        none, none]).map (fun u => (u.producer, u.pleaseFlush, u.added,
          RawHypertrieContext.get defaultBoolTrait u.nodeStorage 1 u.nodec [5])) =
      some (.flushing, false, [⟨[5], true⟩], some false) := by decide +kernel
  obtain ⟨u, hu, hend⟩ := Option.map_eq_some_iff.mp hrun
  simp only [Prod.mk.injEq] at hend
  exact ⟨u, hu, hend⟩

end Runs

end Hypertrie
