import Hypertrie.EdgeUpdate

/-! How a whole node changes from a set of entries to another, at all positions,
and what a deleted node gives back. -/

namespace Hypertrie

open UnorderedMap

variable {M : Type → Type → Type} [UnorderedMap M] {K V : Type}
variable [DecidableEq K] [DecidableEq V] [Inhabited K]
variable {t : HypertrieTrait K V} {F : Nat → Finset (SingleEntry K V) → Prop}
variable {ns : NodeStorage M K V} {d : Nat} {S T : Finset (SingleEntry K V)}
variable {node : FullNode M K V} {ur : UpdateRequests M K V}

/-- The node now holds `T`, and the requests account for its edges; with `release` also for the
edges it had before. -/
structure NodeUpdated (t : HypertrieTrait K V) (F : Nat → Finset (SingleEntry K V) → Prop)
    (ns : NodeStorage M K V) (d : Nat) (T : Finset (SingleEntry K V)) (release : Bool)
    (acc acc' : FullNode M K V × UpdateRequests M K V) : Prop where
  represents : acc'.1.Represents t d T
  valid : acc'.2.Valid t F ns (d - 1)
  delta : ∀ c, Tracked t (d - 1) c → acc'.2.delta t c =
    acc.2.delta t c + acc'.1.edgesTo d c - if release then (acc.1.edgesTo d c : Int) else 0

section Depth1

omit [Inhabited K] in
/-- A node of depth 1 that maps the key parts of `S` to their values has the size of `S`. -/
theorem size_values (hset : IsEntrySet t 1 S) {values : M K V}
    (h : ∀ k v, find values k = some v ↔ ⟨[k], v⟩ ∈ S) : UnorderedMap.size values = S.card := by
  have hinj : Function.Injective (fun p : K × V => (⟨[p.1], p.2⟩ : SingleEntry K V)) := by
    rintro ⟨k, v⟩ ⟨k', v'⟩ he
    simp only [SingleEntry.mk.injEq, List.cons.injEq, and_true] at he
    rw [Prod.mk.injEq]
    exact he
  have hl : ((entries values).map (fun p => (⟨[p.1], p.2⟩ : SingleEntry K V))).toFinset = S := by
    ext e
    rw [List.mem_toFinset, List.mem_map]
    constructor
    · rintro ⟨⟨k, v⟩, hkv, rfl⟩
      exact (h k v).mp ((mem_entries _ k v).mp hkv)
    · intro he
      obtain ⟨key, v⟩ := e
      obtain ⟨k, rfl⟩ := List.length_eq_one_iff.mp (hset.length _ he)
      exact ⟨(k, v), (mem_entries _ k v).mpr ((h k v).mpr he), rfl⟩
  rw [← hl, List.toFinset_card_of_nodup ((nodup_entries values).map hinj), List.length_map]
  rfl

theorem represents_one (hset : IsEntrySet t 1 S)
    (h : ∀ k v, find node.values k = some v ↔ ⟨[k], v⟩ ∈ S) : node.Represents t 1 S := by
  refine ⟨?_, fun _ => h, fun hd => absurd hd (by omega)⟩
  unfold FullNode.size
  rw [if_pos rfl]
  exact size_values hset h

omit [DecidableEq K] [DecidableEq V] [Inhabited K] in
theorem edgesTo_one (node : FullNode M K V) (c : RawIdentifier) : node.edgesTo 1 c = 0 := by
  simp [FullNode.edgesTo]

omit [DecidableEq K] [DecidableEq V] in
/-- An entry of depth 1 is its key part and its value. -/
theorem eq_of_length_one {e : SingleEntry K V} (h : e.key.length = 1) :
    e = ⟨[keyAt e.key 0], e.value⟩ := by
  obtain ⟨key, v⟩ := e
  obtain ⟨k, rfl⟩ := List.length_eq_one_iff.mp h
  rfl

theorem find_foldl_insertOrAssign {newEntries : List (SingleEntry K V)}
    (hset : IsEntrySet t 1 (S ∪ newEntries.toFinset))
    (h : ∀ k v, find node.values k = some v ↔ ⟨[k], v⟩ ∈ S) (k : K) (v : V) :
    find (newEntries.foldl (fun node e => node.insertOrAssign t (keyAt e.key 0) e.value) node).values
      k = some v ↔ ⟨[k], v⟩ ∈ S ∪ newEntries.toFinset := by
  induction newEntries generalizing node S with
  | nil => simpa using h k v
  | cons e l ih =>
    have hunion : insert e S ∪ l.toFinset = S ∪ (e :: l).toFinset := by
      rw [List.toFinset_cons, Finset.insert_union, Finset.union_insert]
    have he : e ∈ S ∪ (e :: l).toFinset := by simp
    have hform := eq_of_length_one (hset.length e he)
    have hval : (if t.isBoolValued then t.one else e.value) = e.value :=
      congrArg SingleEntry.value (HypertrieTrait.makeEntry_of_ne_zero t e.key (hset.value e he))
    rw [List.foldl_cons, ← hunion]
    apply ih (by rwa [hunion])
    intro k' v'
    unfold FullNode.insertOrAssign
    dsimp only
    rw [find_assign, hval, Finset.mem_insert]
    by_cases hk : k' = keyAt e.key 0
    · rw [if_pos hk, hk, Option.some.injEq]
      constructor
      · intro hv
        rw [← hv]
        exact Or.inl hform.symm
      · rintro (heq | hS)
        · rw [← heq]
        · have hkey : e.key = [keyAt e.key 0] := congrArg SingleEntry.key hform
          have heq := hset.unique e he _ (Finset.mem_union_left _ hS) hkey
          rw [heq]
    · rw [if_neg hk, h k' v']
      have hne : (⟨[k'], v'⟩ : SingleEntry K V) ≠ e := by
        intro heq
        rw [← heq] at hk
        exact hk rfl
      simp [hne]

theorem find_foldl_erase {removed : List (SingleEntry K V)} (hset : IsEntrySet t 1 S)
    (hsub : removed.toFinset ⊆ S) (h : ∀ k v, find node.values k = some v ↔ ⟨[k], v⟩ ∈ S)
    (k : K) (v : V) :
    find (removed.foldl (fun node e => { node with values := erase node.values (keyAt e.key 0) })
      node).values k = some v ↔ ⟨[k], v⟩ ∈ S \ removed.toFinset := by
  have hgen : ∀ (l : List (SingleEntry K V)) (node : FullNode M K V),
      find (l.foldl (fun node e => { node with values := erase node.values (keyAt e.key 0) })
        node).values k = if k ∈ l.map (fun e => keyAt e.key 0) then none else find node.values k := by
    intro l
    induction l with
    | nil => intro node; simp
    | cons e l ih =>
      intro node
      rw [List.foldl_cons, ih, find_erase]
      by_cases hk : k = keyAt e.key 0
      · simp [hk]
      · simp [hk]
  rw [hgen, Finset.mem_sdiff]
  by_cases hmem : (⟨[k], v⟩ : SingleEntry K V) ∈ S
  · have hrem := mem_removedParts hset hsub hmem
    by_cases hk : k ∈ removed.map (fun e => keyAt e.key 0)
    · rw [if_pos hk]
      constructor
      · intro hn
        cases hn
      · intro hn
        exact absurd (hrem.mp hk) hn.2
    · rw [if_neg hk, h k v]
      exact ⟨fun hS => ⟨hS, fun hr => hk (hrem.mpr hr)⟩, fun hn => hn.1⟩
  · have hnone : ¬ find node.values k = some v := fun hf => hmem ((h k v).mp hf)
    constructor
    · intro hf
      split at hf
      · cases hf
      · exact absurd hf hnone
    · intro hn
      exact absurd hn.1 hmem

end Depth1

section Positions

/-- The loop over the positions of a node. -/
theorem foldlM_positions (release : Bool) (node : FullNode M K V)
    {f : FullNode M K V × UpdateRequests M K V → Nat → Option (FullNode M K V × UpdateRequests M K V)}
    (hd : 1 < d) (hv : ur.Valid t F ns (d - 1))
    (hstep : ∀ acc pos, pos < d → acc.2.Valid t F ns (d - 1) → acc.1.edges pos = node.edges pos →
      Ensures (f acc pos) (EdgesReplaced t F ns d pos T release acc)) :
    Ensures ((List.range d).foldlM f (node, ur)) (fun acc =>
      (∀ pos < d, EdgesOf t d (acc.1.edges pos) T pos) ∧ acc.1.size_ = node.size_ ∧
        acc.2.Valid t F ns (d - 1) ∧ ∀ c, Tracked t (d - 1) c → acc.2.delta t c =
          ur.delta t c + acc.1.edgesTo d c - if release then (node.edgesTo d c : Int) else 0) := by
  refine (Ensures.foldlM (I := fun rest acc => ∃ done, done ++ rest = List.range d ∧
    (∀ pos ∈ done, EdgesOf t d (acc.1.edges pos) T pos) ∧
    (∀ pos ∈ rest, acc.1.edges pos = node.edges pos) ∧ acc.1.size_ = node.size_ ∧
    acc.2.Valid t F ns (d - 1) ∧ ∀ c, Tracked t (d - 1) c → acc.2.delta t c = ur.delta t c +
      (done.map (fun pos => (occurrences (acc.1.edges pos) c : Int))).sum -
      if release then (done.map (fun pos => (occurrences (node.edges pos) c : Int))).sum else 0)
    ⟨[], rfl, by simp, fun _ _ => rfl, rfl, hv, fun c _ => by simp⟩ ?_).mono ?_
  · rintro pos rest acc ⟨done, hlist, hdone, hrest, hsize, hvalid, hdelta⟩
    have hnd : (done ++ pos :: rest).Nodup := by
      rw [hlist]
      exact List.nodup_range
    have hpd : pos ∉ done := fun h => (List.nodup_append.mp hnd).2.2 pos h pos List.mem_cons_self rfl
    have hpr : pos ∉ rest := (List.nodup_cons.mp (List.nodup_append.mp hnd).2.1).1
    have hlt : pos < d := by
      rw [← List.mem_range, ← hlist]
      simp
    refine (hstep acc pos hlt hvalid (hrest pos List.mem_cons_self)).mono ?_
    rintro ⟨node', ur'⟩ ⟨⟨edges, hnode, hedges⟩, hvalid', hdelta'⟩
    dsimp only at hnode
    subst hnode
    have hother : ∀ pos' ∈ done, (acc.1.setEdges pos edges).edges pos' = acc.1.edges pos' := by
      intro pos' hp'
      have hne : pos' ≠ pos := fun he => hpd (he ▸ hp')
      simp [hne]
    refine ⟨done ++ [pos], by simpa using hlist, ?_, ?_, hsize, hvalid', fun c hc => ?_⟩
    · intro pos' hp'
      rcases List.mem_append.mp hp' with hp' | hp'
      · rw [hother pos' hp']
        exact hdone pos' hp'
      · rw [List.mem_singleton.mp hp']
        simpa using hedges
    · intro pos' hp'
      have hne : pos' ≠ pos := fun he => hpr (he ▸ hp')
      rw [FullNode.setEdges_edges, Function.update_of_ne hne]
      exact hrest pos' (List.mem_cons_of_mem _ hp')
    · have h1 := hdelta c hc
      have h2 := hdelta' c hc
      have hsame : done.map (fun pos' =>
          (occurrences ((acc.1.setEdges pos edges).edges pos') c : Int)) =
          done.map (fun pos' => (occurrences (acc.1.edges pos') c : Int)) :=
        List.map_congr_left fun pos' hp' => by rw [hother pos' hp']
      rw [hrest pos List.mem_cons_self] at h2
      simp only [List.map_append, List.sum_append, List.map_cons, List.map_nil, List.sum_cons,
        List.sum_nil, hsame]
      dsimp only at h2 ⊢
      cases release with
      | true =>
        simp only [if_true] at h1 h2 ⊢
        omega
      | false =>
        simp only [Bool.false_eq_true, if_false] at h1 h2 ⊢
        omega
  · rintro acc ⟨done, hlist, hdone, -, hsize, hvalid, hdelta⟩
    rw [List.append_nil] at hlist
    subst hlist
    refine ⟨fun pos hp => hdone pos (List.mem_range.mpr hp), hsize, hvalid, fun c hc => ?_⟩
    have h := hdelta c hc
    unfold FullNode.edgesTo
    rw [if_pos hd, if_pos hd]
    simpa [Nat.cast_list_sum, List.map_map, Function.comp_def] using h

end Positions

section WholeNode

/-- The children of a stored set in play. -/
theorem childrenAt_of_stored (hF : InPlay t F) (hS : F d S) (hc : 2 ≤ S.card) (hd : 1 < d)
    (hcs : ChildrenStored t F ns d) (hst : contains (ns.fns d) (t.ident d S) = true) {pos : Nat}
    (hp : pos < d) : ChildrenAt t F ns d pos S :=
  ⟨fun _ hne => hF.split hS hc hp hd hne, fun k => hcs hd S hS hc hst pos hp k⟩

theorem childrenAt_empty {pos : Nat} : ChildrenAt t F ns d pos (∅ : Finset (SingleEntry K V)) := by
  refine ⟨fun k hne => ?_, fun k => ⟨fun hc => ?_, fun hc => ?_⟩⟩
  · simp at hne
  · simp at hc
  · simp at hc

theorem represents_new : (FullNode.new 0 : FullNode M K V).Represents t d ∅ := by
  refine ⟨?_, ?_, ?_⟩
  · unfold FullNode.size FullNode.new UnorderedMap.size
    split
    · rw [entries_empty]
      rfl
    · rfl
  · intro _ k v
    simp [FullNode.new]
  · intro _ pos _ k
    simp [FullNode.new]

theorem applyFnEntryInsertion_spec (hF : InPlay t F) (hok : 1 < d → NodesOk t F ns (d - 1))
    (origin : NodeOrigin) {newEntries : List (SingleEntry K V)} (hv : ur.Valid t F ns (d - 1))
    (hd : 0 < d) (hn : newEntries.Nodup) (hdisj : Disjoint S newEntries.toFinset)
    (hS : 1 < d → ∀ pos < d, ChildrenAt t F ns d pos S) (hT : F d (S ∪ newEntries.toFinset))
    (hc : 2 ≤ (S ∪ newEntries.toFinset).card) (hnew : origin = .justCreated → S = ∅)
    (hrep : node.Represents t d S) :
    Ensures (ApplyUpdate.applyFnEntryInsertion t ns d origin newEntries node ur)
      (NodeUpdated t F ns d (S ∪ newEntries.toFinset) (origin = .moved) (node, ur)) := by
  have hset := hF.entrySet hT
  unfold ApplyUpdate.applyFnEntryInsertion
  by_cases h1 : d = 1
  · subst h1
    rw [if_pos rfl]
    refine Ensures.pure ⟨represents_one hset (find_foldl_insertOrAssign hset (hrep.values rfl)), hv,
      fun c _ => ?_⟩
    simp [edgesTo_one]
  · have hd1 : 1 < d := by omega
    rw [if_neg h1]
    refine (foldlM_positions (T := S ∪ newEntries.toFinset) (origin = .moved)
      { node with size_ := node.size_ + newEntries.length } hd1 hv ?_).mono ?_
    · rintro ⟨node', ur'⟩ pos hp hv' he
      refine insertAtPos_spec hF (hok hd1) hv' hp hset hn hdisj (hS hd1 pos hp)
        (fun k hne => hF.split hT hc hp hd1 hne) hnew ?_
      rw [he]
      exact hrep.edges hd1 pos hp
    · rintro acc ⟨hedges, hsize, hvalid, hdelta⟩
      refine ⟨⟨?_, fun h => absurd h h1, fun _ => hedges⟩, hvalid, hdelta⟩
      have hs := hrep.size
      unfold FullNode.size at hs ⊢
      rw [if_neg h1] at hs ⊢
      rw [hsize, Finset.card_union_of_disjoint hdisj, List.toFinset_card_of_nodup hn, ← hs]

theorem applyFnEntryErasure_spec (hF : InPlay t F)
    (hok : ∀ d' < d, NodesOk t F ns d' ∧ ChildrenStored t F ns d') {origin : NodeOrigin}
    (ho : origin ≠ .justCreated) {removed : List (SingleEntry K V)} (hv : ur.Valid t F ns (d - 1))
    (hd : 0 < d) (hn : removed.Nodup) (hsub : removed.toFinset ⊆ S) (hFS : F d S)
    (hS : 1 < d → ∀ pos < d, ChildrenAt t F ns d pos S) (hT : F d (S \ removed.toFinset))
    (hc : 2 ≤ (S \ removed.toFinset).card) (hrep : node.Represents t d S) :
    Ensures (ApplyUpdate.applyFnEntryErasure t ns d origin removed node ur)
      (NodeUpdated t F ns d (S \ removed.toFinset) (origin = .moved) (node, ur)) := by
  have hset := hF.entrySet hFS
  unfold ApplyUpdate.applyFnEntryErasure
  by_cases h1 : d = 1
  · subst h1
    rw [if_pos rfl]
    refine Ensures.pure ⟨represents_one (hF.entrySet hT)
      (find_foldl_erase hset hsub (hrep.values rfl)), hv, fun c _ => ?_⟩
    simp [edgesTo_one]
  · have hd1 : 1 < d := by omega
    rw [if_neg h1]
    refine (foldlM_positions (T := S \ removed.toFinset) (origin = .moved)
      { node with size_ := node.size_ - removed.length } hd1 hv ?_).mono ?_
    · rintro ⟨node', ur'⟩ pos hp hv' he
      refine eraseAtPos_spec hF (fun d' hd' => hok d' (by omega)) ho hv' hd1 hp hset hn hsub
        (hS hd1 pos hp) (fun k hne => hF.split hT hc hp hd1 hne) ?_
      rw [he]
      exact hrep.edges hd1 pos hp
    · rintro acc ⟨hedges, hsize, hvalid, hdelta⟩
      refine ⟨⟨?_, fun h => absurd h h1, fun _ => hedges⟩, hvalid, hdelta⟩
      have hs := hrep.size
      unfold FullNode.size at hs ⊢
      rw [if_neg h1] at hs ⊢
      rw [hsize, Finset.card_sdiff_of_subset hsub, List.toFinset_card_of_nodup hn, ← hs]

/-- A deleted node gives back all its children. -/
theorem releaseChildren_spec (hF : InPlay t F) (hv : ur.Valid t F ns (d - 1)) (hd : 0 < d)
    (hS : 1 < d → ∀ pos < d, ChildrenAt t F ns d pos S) (hrep : node.Represents t d S) :
    (ApplyUpdate.releaseChildren t d node ur).Valid t F ns (d - 1) ∧
      ∀ c, Tracked t (d - 1) c →
        (ApplyUpdate.releaseChildren t d node ur).delta t c = ur.delta t c - node.edgesTo d c := by
  unfold ApplyUpdate.releaseChildren
  by_cases h1 : d = 1
  · subst h1
    rw [if_pos rfl]
    exact ⟨hv, fun c _ => by simp [edgesTo_one]⟩
  have hd1 : 1 < d := by omega
  rw [if_neg h1]
  have hinv := foldl_invariant
    (f := fun ur pos => (entries (node.edges pos)).foldl (ApplyUpdate.releaseChild t d) ur)
    (I := fun rest ur' => (∀ pos ∈ rest, pos < d) ∧ ur'.Valid t F ns (d - 1) ∧
      ∀ c, Tracked t (d - 1) c → ur'.delta t c - (rest.map
        (fun pos => (occurrences (node.edges pos) c : Int))).sum = ur.delta t c - node.edgesTo d c)
    (l := List.range d) (s := ur) ⟨fun pos hp => List.mem_range.mp hp, hv, fun c _ => by
      unfold FullNode.edgesTo
      rw [if_pos hd1]
      simp [Nat.cast_list_sum, List.map_map, Function.comp_def]⟩ (by
      rintro pos rest ur' ⟨hlt, hv', hd'⟩
      have hp := hlt pos List.mem_cons_self
      obtain ⟨hv₂, hd₂⟩ := foldl_releaseChild_spec hF hv' (hS hd1 pos hp)
        (l := entries (node.edges pos)) (by
          rintro ⟨k, id⟩ hk
          rw [← hrep.edges hd1 pos hp]
          exact (mem_entries _ k id).mp hk)
      refine ⟨fun p hp => hlt p (List.mem_cons_of_mem _ hp), hv₂, fun c hc => ?_⟩
      have h1 := hd' c hc
      have h2 := hd₂ c hc
      have hocc : ((entries (node.edges pos)).map (fun e => hits (some e.2) c)).sum =
          (occurrences (node.edges pos) c : Int) := by
        rw [occurrences_eq_hitsOn List.nodup_nil]
        simp
      rw [List.map_cons, List.sum_cons] at h1
      omega)
  refine ⟨hinv.2.1, fun c hc => ?_⟩
  have h := hinv.2.2 c hc
  simpa using h

end WholeNode

end Hypertrie
