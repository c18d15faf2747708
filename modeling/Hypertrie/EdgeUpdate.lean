import Hypertrie.ApplyUpdate
import Hypertrie.RequestSpec

/-! How the edges of one position change from a set of entries to another. The
loops go over key parts; each one settles its edge, and the requests for the
children keep pace with the edges. -/

namespace Hypertrie

open UnorderedMap

variable {M : Type → Type → Type} [UnorderedMap M] {K V : Type}
variable [DecidableEq K] [DecidableEq V] [Inhabited K]
variable {t : HypertrieTrait K V} {F : Nat → Finset (SingleEntry K V) → Prop}
variable {ns : NodeStorage M K V} {d pos : Nat} {S T : Finset (SingleEntry K V)}
variable {edges : M K RawIdentifier} {ur : UpdateRequests M K V}

/-- The edges of one position of a node that holds `S`. -/
def EdgesOf (t : HypertrieTrait K V) (d : Nat) (edges : M K RawIdentifier)
    (S : Finset (SingleEntry K V)) (pos : Nat) : Prop :=
  ∀ k, find edges k = childIdent t (d - 1) (split S pos k)

/-- The edges under these key parts that lead to `id`. -/
def hitsOn (keys : List K) (edges : M K RawIdentifier) (id : RawIdentifier) : Int :=
  (keys.map (fun k => hits (find edges k) id)).sum

omit [Inhabited K] in
@[simp]
theorem hitsOn_cons (k : K) (keys : List K) (edges : M K RawIdentifier) (id : RawIdentifier) :
    hitsOn (k :: keys) edges id = hits (find edges k) id + hitsOn keys edges id := by
  simp [hitsOn]

omit [Inhabited K] in
@[simp]
theorem hitsOn_nil (edges : M K RawIdentifier) (id : RawIdentifier) : hitsOn [] edges id = 0 := rfl

omit [Inhabited K] in
theorem hitsOn_congr {keys : List K} {edges edges' : M K RawIdentifier}
    (h : ∀ k ∈ keys, find edges k = find edges' k) (id : RawIdentifier) :
    hitsOn keys edges id = hitsOn keys edges' id := by
  unfold hitsOn
  rw [List.map_congr_left fun k hk => by rw [h k hk]]

omit [Inhabited K] in
/-- All edges together, split by whether their key part is listed. -/
theorem occurrences_eq_hitsOn {keys : List K} (hn : keys.Nodup) (edges : M K RawIdentifier)
    (id : RawIdentifier) :
    (occurrences edges id : Int) = hitsOn keys edges id +
      ((entries edges).map (fun e => if e.1 ∈ keys then 0 else hits (some e.2) id)).sum := by
  induction keys with
  | nil =>
    rw [occurrences_eq_sum, hitsOn_nil, zero_add, List.map_map]
    congr 1
    apply List.map_congr_left
    rintro ⟨k, c⟩ hk
    have hf := (mem_entries edges k c).mp hk
    simp [hf]
  | cons k keys ih =>
    obtain ⟨hk, hn⟩ := List.nodup_cons.mp hn
    rw [ih hn, hitsOn_cons]
    have hsum : ((entries edges).map (fun e => if e.1 ∈ keys then 0 else hits (some e.2) id)).sum =
        hits (find edges k) id +
          ((entries edges).map (fun e => if e.1 ∈ k :: keys then 0 else hits (some e.2) id)).sum := by
      cases hf : find edges k with
      | none =>
        rw [hits_none, zero_add]
        congr 1
        apply List.map_congr_left
        rintro ⟨k', c⟩ hk'
        have hne : k' ≠ k := by
          rintro rfl
          rw [(mem_entries edges k' c).mp hk'] at hf
          cases hf
        simp [hne]
      | some c =>
        have hp := entries_perm_erase hf
        have hrest : ∀ e ∈ entries (erase edges k), e.1 ≠ k := by
          rintro ⟨k', c'⟩ he rfl
          rw [mem_entries, find_erase_self] at he
          cases he
        rw [(hp.map _).sum_eq, (hp.map _).sum_eq, List.map_cons, List.map_cons, List.sum_cons,
          List.sum_cons, if_neg hk, if_pos List.mem_cons_self, zero_add]
        congr 2
        apply List.map_congr_left
        intro e he
        simp [hrest e he]
    rw [hsum]
    omega

/-- Between the edges of `S` and those of `T`, with these key parts still to be settled. With
`release` the edges there were give back their children, otherwise the pending ones are not
counted yet. -/
structure EdgesBetween (t : HypertrieTrait K V) (F : Nat → Finset (SingleEntry K V) → Prop)
    (ns : NodeStorage M K V) (d pos : Nat) (S T : Finset (SingleEntry K V)) (release : Bool)
    (edges₀ : M K RawIdentifier) (ur₀ : UpdateRequests M K V) (pending : List K)
    (acc : M K RawIdentifier × UpdateRequests M K V) : Prop where
  find : ∀ k, find acc.1 k =
    if k ∈ pending then childIdent t (d - 1) (split S pos k)
    else childIdent t (d - 1) (split T pos k)
  valid : acc.2.Valid t F ns (d - 1)
  delta : ∀ c, Tracked t (d - 1) c → acc.2.delta t c = ur₀.delta t c + occurrences acc.1 c -
    if release then (occurrences edges₀ c : Int) else hitsOn pending acc.1 c

/-- One edge is settled. -/
structure EdgeSettled (t : HypertrieTrait K V) (F : Nat → Finset (SingleEntry K V) → Prop)
    (ns : NodeStorage M K V) (d pos : Nat) (S T : Finset (SingleEntry K V)) (release : Bool) (k : K)
    (acc acc' : M K RawIdentifier × UpdateRequests M K V) : Prop where
  find : ∀ k', find acc'.1 k' =
    if k' = k then childIdent t (d - 1) (split T pos k) else UnorderedMap.find acc.1 k'
  valid : acc'.2.Valid t F ns (d - 1)
  delta : ∀ c, Tracked t (d - 1) c → acc'.2.delta t c =
    acc.2.delta t c + hits (childIdent t (d - 1) (split T pos k)) c -
      if release then hits (childIdent t (d - 1) (split S pos k)) c else 0

theorem EdgesBetween.settle {release : Bool} {ur₀ : UpdateRequests M K V} {k : K} {rest : List K}
    {acc acc' : M K RawIdentifier × UpdateRequests M K V}
    (h : EdgesBetween t F ns d pos S T release edges ur₀ (k :: rest) acc) (hk : k ∉ rest)
    (hs : EdgeSettled t F ns d pos S T release k acc acc') :
    EdgesBetween t F ns d pos S T release edges ur₀ rest acc' := by
  have hold : UnorderedMap.find acc.1 k = childIdent t (d - 1) (split S pos k) := by
    rw [h.find k, if_pos List.mem_cons_self]
  refine ⟨?_, hs.valid, fun c hc => ?_⟩
  · intro k'
    rw [hs.find k']
    by_cases hkk : k' = k
    · subst hkk
      rw [if_pos rfl, if_neg hk]
    · rw [if_neg hkk, h.find k']
      simp [hkk]
  · have hocc := occurrences_of_update hs.find c
    have hd := hs.delta c hc
    have h0 := h.delta c hc
    rw [hold] at hocc
    cases release with
    | true =>
      simp only [if_true] at hd h0 ⊢
      omega
    | false =>
      have hrest : hitsOn rest acc'.1 c = hitsOn rest acc.1 c := by
        apply hitsOn_congr
        intro k' hk'
        have hne : k' ≠ k := fun he => hk (he ▸ hk')
        rw [hs.find k', if_neg hne]
      simp only [Bool.false_eq_true, if_false, hitsOn_cons, hold, hrest] at hd h0 ⊢
      omega

/-- When everything is settled the edges are those of `T`. -/
theorem EdgesBetween.done {release : Bool} {ur₀ : UpdateRequests M K V}
    {acc : M K RawIdentifier × UpdateRequests M K V}
    (h : EdgesBetween t F ns d pos S T release edges ur₀ [] acc) :
    EdgesOf t d acc.1 T pos ∧ acc.2.Valid t F ns (d - 1) ∧
      ∀ c, Tracked t (d - 1) c → acc.2.delta t c = ur₀.delta t c + occurrences acc.1 c -
        if release then (occurrences edges c : Int) else 0 := by
  refine ⟨fun k => ?_, h.valid, fun c hc => ?_⟩
  · simpa using h.find k
  · simpa using h.delta c hc

section Insertion

variable {newEntries : List (SingleEntry K V)}

/-- The children a set in play has at one position. -/
structure ChildrenAt (t : HypertrieTrait K V) (F : Nat → Finset (SingleEntry K V) → Prop)
    (ns : NodeStorage M K V) (d pos : Nat) (S : Finset (SingleEntry K V)) : Prop where
  inPlay : ∀ k, (split S pos k).Nonempty → F (d - 1) (split S pos k)
  stored : ∀ k, Stored t ns (d - 1) (split S pos k)

theorem insertIntoEdge_spec (hF : InPlay t F) (hok : NodesOk t F ns (d - 1)) {origin : NodeOrigin}
    {acc : M K RawIdentifier × UpdateRequests M K V} {k : K} (hv : acc.2.Valid t F ns (d - 1))
    (hp : pos < d) (hset : IsEntrySet t d (S ∪ newEntries.toFinset)) (hn : newEntries.Nodup)
    (hdisj : Disjoint S newEntries.toFinset) (hS : ChildrenAt t F ns d pos S)
    (hT : ∀ k, (split (S ∪ newEntries.toFinset) pos k).Nonempty →
      F (d - 1) (split (S ∪ newEntries.toFinset) pos k))
    (hnew : origin = .justCreated → S = ∅)
    (hk : find acc.1 k = childIdent t (d - 1) (split S pos k))
    (hsub : subEntries newEntries pos k ≠ []) :
    Ensures (ApplyUpdate.insertIntoEdge t ns d origin acc (k, subEntries newEntries pos k))
      (EdgeSettled t F ns d pos S (S ∪ newEntries.toFinset) (origin = .moved) k acc) := by
  have hchild : split (S ∪ newEntries.toFinset) pos k =
      split S pos k ∪ (subEntries newEntries pos k).toFinset := by
    rw [split_union, toFinset_subEntries]
  have hsubset : newEntries.toFinset ⊆ S ∪ newEntries.toFinset := Finset.subset_union_right
  have hnodup := (hset.subset hsubset).nodup_subEntries hn hp k
  have hne : (split (S ∪ newEntries.toFinset) pos k).Nonempty := by
    rw [hchild]
    exact Finset.Nonempty.mono Finset.subset_union_right ((List.toFinset_nonempty_iff _).mpr hsub)
  have hTk := hT k hne
  have hassign : ∀ {id}, id = t.ident (d - 1) (split (S ∪ newEntries.toFinset) pos k) → ∀ k',
      find (assign acc.1 k id) k' =
        if k' = k then childIdent t (d - 1) (split (S ∪ newEntries.toFinset) pos k)
        else find acc.1 k' := by
    intro id hid k'
    rw [find_assign, hid, childIdent_of_nonempty t (d - 1) hne]
  unfold ApplyUpdate.insertIntoEdge
  dsimp only
  rcases (split S pos k).eq_empty_or_nonempty with h0 | h0
  · -- there is no child yet
    have hnone : (if origin = .justCreated then none else find acc.1 k) = none := by
      rw [hk, h0, childIdent_empty, ite_self]
    rw [h0, Finset.empty_union] at hchild
    rw [hnone]
    by_cases hip : t.inPlaceNode (d - 1) = true ∧ (subEntries newEntries pos k).length = 1
    · obtain ⟨hip, h1⟩ := hip
      obtain ⟨e, he⟩ := List.length_eq_one_iff.mp h1
      have hid : t.ident (d - 1) (split (S ∪ newEntries.toFinset) pos k) =
          t.encodeSingleEntry (d - 1) e := by
        rw [hchild, he, ← HypertrieTrait.ident_singleton]
        rfl
      rw [hip, he]
      refine Ensures.pure ⟨hassign hid.symm, hv, fun c hc => ?_⟩
      have h1' : (split (S ∪ newEntries.toFinset) pos k).card = 1 := by
        rw [hchild, he]
        rfl
      have hnc := ident_ne_of_untracked hF hTk hip h1' hc
      rw [childIdent_of_nonempty t (d - 1) hne, h0]
      simp [hits, hnc]
    · have hadd := UpdateRequests.addNode_spec (S := split S pos k) hF hv hnodup
        (hchild ▸ hTk) hsub
      rw [← hchild] at hadd
      dsimp only
      split
      next e hip' he => exact absurd ⟨hip', by rw [he]; rfl⟩ hip
      next =>
        refine Ensures.pure ⟨hassign hadd.id, hadd.valid, fun c hc => ?_⟩
        rw [hadd.delta c hc, h0]
        simp
  · have hsome : (if origin = .justCreated then none else find acc.1 k) =
        some (t.ident (d - 1) (split S pos k)) := by
      have hor : origin ≠ .justCreated := by
        intro ho
        rw [hnew ho] at h0
        simp at h0
      rw [if_neg hor, hk, childIdent_of_nonempty t (d - 1) h0]
    have hdk : Disjoint (split S pos k) (subEntries newEntries pos k).toFinset := by
      rw [toFinset_subEntries]
      exact hset.disjoint_split hdisj hp k
    have hins := UpdateRequests.insertIntoNode_spec hF hok hv (hS.inPlay k h0) h0 (hS.stored k)
      hnodup hsub hdk (hchild ▸ hTk) (origin = .moved)
    rw [← hchild] at hins
    rw [hsome]
    refine Ensures.bind hins fun res hr => Ensures.pure ?_
    exact ⟨hassign hr.id, hr.valid, hr.delta⟩

end Insertion

section Children

theorem hits_of_inPlace (hF : InPlay t F) (hS : ChildrenAt t F ns d pos S) {k : K}
    {id c : RawIdentifier} (hk : childIdent t (d - 1) (split S pos k) = some id)
    (hip : (t.inPlaceNode (d - 1) && t.isSen id) = true) (hc : Tracked t (d - 1) c) :
    hits (some id) c = 0 := by
  obtain ⟨hne, rfl⟩ := childIdent_eq_some.mp hk
  rw [Bool.and_eq_true] at hip
  have h1 := HypertrieTrait.isSen_ident_iff.mp hip.2
  have hnc := ident_ne_of_untracked hF (hS.inPlay k hne) hip.1 h1 hc
  simp [hits, hnc]

/-- A child that stays the same is counted for the copy. -/
theorem retainChild_spec {α : Type} (changed : M K α) (hF : InPlay t F)
    (hv : ur.Valid t F ns (d - 1)) (hS : ChildrenAt t F ns d pos S) {e : K × RawIdentifier}
    (hk : childIdent t (d - 1) (split S pos e.1) = some e.2) :
    (ApplyUpdate.retainChild t d changed ur e).Valid t F ns (d - 1) ∧
      ∀ c, Tracked t (d - 1) c → (ApplyUpdate.retainChild t d changed ur e).delta t c =
        ur.delta t c + if contains changed e.1 then 0 else hits (some e.2) c := by
  obtain ⟨hne, hid⟩ := childIdent_eq_some.mp hk
  have hC := hS.inPlay e.1 hne
  unfold ApplyUpdate.retainChild
  by_cases hch : contains changed e.1 = true
  · simp only [if_pos hch]
    exact ⟨hv, fun c _ => by omega⟩
  simp only [if_neg hch]
  by_cases hip : (t.inPlaceNode (d - 1) && t.isSen e.2) = true
  · rw [if_pos hip]
    refine ⟨hv, fun c hc => ?_⟩
    rw [hits_of_inPlace hF hS hk hip hc]
    omega
  · rw [if_neg hip]
    refine ⟨hv.incr ?_ ?_ ?_, fun c hc => ?_⟩
    · rw [← hid]
      exact hF.ident_ne_seed hC hne
    · intro hf
      rw [← hid] at hf ⊢
      exact Or.inl ((hS.stored e.1).fn ((hF.isFn_ident_iff hC).mp hf))
    · intro hs
      rw [← hid] at hs ⊢
      exact (hS.stored e.1).sen (HypertrieTrait.isSen_ident_iff.mp hs)
    · rw [UpdateRequests.delta_applyRefCountDelta 1 hc, hits_some]

theorem foldl_retainChild_spec {α : Type} (changed : M K α) (hF : InPlay t F)
    (hv : ur.Valid t F ns (d - 1)) (hS : ChildrenAt t F ns d pos S) {l : List (K × RawIdentifier)}
    (hl : ∀ e ∈ l, childIdent t (d - 1) (split S pos e.1) = some e.2) :
    (l.foldl (ApplyUpdate.retainChild t d changed) ur).Valid t F ns (d - 1) ∧
      ∀ c, Tracked t (d - 1) c → (l.foldl (ApplyUpdate.retainChild t d changed) ur).delta t c =
        ur.delta t c +
          (l.map (fun e => if contains changed e.1 then 0 else hits (some e.2) c)).sum := by
  induction l generalizing ur with
  | nil => exact ⟨hv, fun c _ => by simp⟩
  | cons e l ih =>
    obtain ⟨hv₁, hd₁⟩ := retainChild_spec changed hF hv hS (hl e List.mem_cons_self)
    obtain ⟨hv₂, hd₂⟩ := ih hv₁ (fun e he => hl e (List.mem_cons_of_mem _ he))
    refine ⟨hv₂, fun c hc => ?_⟩
    have h₁ := hd₁ c hc
    have h₂ := hd₂ c hc
    rw [List.map_cons, List.sum_cons]
    rw [List.foldl_cons]
    omega

/-- A child of a deleted node loses one reference. -/
theorem releaseChild_spec (hF : InPlay t F) (hv : ur.Valid t F ns (d - 1))
    (hS : ChildrenAt t F ns d pos S) {e : K × RawIdentifier}
    (hk : childIdent t (d - 1) (split S pos e.1) = some e.2) :
    (ApplyUpdate.releaseChild t d ur e).Valid t F ns (d - 1) ∧
      ∀ c, Tracked t (d - 1) c →
        (ApplyUpdate.releaseChild t d ur e).delta t c = ur.delta t c - hits (some e.2) c := by
  obtain ⟨hne, hid⟩ := childIdent_eq_some.mp hk
  have hC := hS.inPlay e.1 hne
  unfold ApplyUpdate.releaseChild
  by_cases hip : (t.inPlaceNode (d - 1) && t.isSen e.2) = true
  · rw [if_pos hip]
    refine ⟨hv, fun c hc => ?_⟩
    rw [hits_of_inPlace hF hS hk hip hc]
    omega
  · rw [if_neg hip]
    obtain ⟨hv', hd'⟩ := UpdateRequests.release_spec hF hv hC hne (hS.stored e.1) true
    rw [if_pos rfl, hid] at hv'
    refine ⟨hv', fun c hc => ?_⟩
    have h := hd' c hc
    rw [if_pos rfl, if_pos rfl, hid, hk] at h
    exact h

theorem foldl_releaseChild_spec (hF : InPlay t F) (hv : ur.Valid t F ns (d - 1))
    (hS : ChildrenAt t F ns d pos S) {l : List (K × RawIdentifier)}
    (hl : ∀ e ∈ l, childIdent t (d - 1) (split S pos e.1) = some e.2) :
    (l.foldl (ApplyUpdate.releaseChild t d) ur).Valid t F ns (d - 1) ∧
      ∀ c, Tracked t (d - 1) c → (l.foldl (ApplyUpdate.releaseChild t d) ur).delta t c =
        ur.delta t c - (l.map (fun e => hits (some e.2) c)).sum := by
  induction l generalizing ur with
  | nil => exact ⟨hv, fun c _ => by simp⟩
  | cons e l ih =>
    obtain ⟨hv₁, hd₁⟩ := releaseChild_spec hF hv hS (hl e List.mem_cons_self)
    obtain ⟨hv₂, hd₂⟩ := ih hv₁ (fun e he => hl e (List.mem_cons_of_mem _ he))
    refine ⟨hv₂, fun c hc => ?_⟩
    have h₁ := hd₁ c hc
    have h₂ := hd₂ c hc
    rw [List.map_cons, List.sum_cons]
    rw [List.foldl_cons]
    omega

end Children

section AtPos

/-- From the edges of `S` to those of `T`: with `release` the children that go are given back. -/
structure EdgesReplaced (t : HypertrieTrait K V) (F : Nat → Finset (SingleEntry K V) → Prop)
    (ns : NodeStorage M K V) (d pos : Nat) (T : Finset (SingleEntry K V)) (release : Bool)
    (acc acc' : FullNode M K V × UpdateRequests M K V) : Prop where
  node : ∃ edges, acc'.1 = acc.1.setEdges pos edges ∧ EdgesOf t d edges T pos
  valid : acc'.2.Valid t F ns (d - 1)
  delta : ∀ c, Tracked t (d - 1) c →
    acc'.2.delta t c = acc.2.delta t c + occurrences (acc'.1.edges pos) c -
      if release then (occurrences (acc.1.edges pos) c : Int) else 0

theorem EdgesBetween.replaced {release : Bool} {node : FullNode M K V}
    {acc : M K RawIdentifier × UpdateRequests M K V}
    (h : EdgesBetween t F ns d pos S T release (node.edges pos) ur [] acc) :
    EdgesReplaced t F ns d pos T release (node, ur) (node.setEdges pos acc.1, acc.2) := by
  obtain ⟨he, hv, hd⟩ := h.done
  refine ⟨⟨acc.1, rfl, he⟩, hv, fun c hc => ?_⟩
  simpa using hd c hc

theorem insertAtPos_spec (hF : InPlay t F) (hok : NodesOk t F ns (d - 1)) {origin : NodeOrigin}
    {newEntries : List (SingleEntry K V)} {node : FullNode M K V} (hv : ur.Valid t F ns (d - 1))
    (hp : pos < d) (hset : IsEntrySet t d (S ∪ newEntries.toFinset)) (hn : newEntries.Nodup)
    (hdisj : Disjoint S newEntries.toFinset) (hS : ChildrenAt t F ns d pos S)
    (hT : ∀ k, (split (S ∪ newEntries.toFinset) pos k).Nonempty →
      F (d - 1) (split (S ∪ newEntries.toFinset) pos k))
    (hnew : origin = .justCreated → S = ∅) (hedges : EdgesOf t d (node.edges pos) S pos) :
    Ensures (ApplyUpdate.insertAtPos t ns d origin newEntries (node, ur) pos)
      (EdgesReplaced t F ns d pos (S ∪ newEntries.toFinset) (origin = .moved) (node, ur)) := by
  set newly : M K (List (SingleEntry K V)) := entrySubsetForPos newEntries pos with hnewly
  set keys := (entries newly).map Prod.fst with hkeys
  have hkn : keys.Nodup := nodup_keys newly
  have hmem : ∀ k, k ∈ keys ↔ subEntries newEntries pos k ≠ [] := by
    intro k
    rw [hkeys, mem_keys, contains_iff]
    constructor
    · rintro ⟨sub, hs⟩
      obtain ⟨rfl, hne⟩ := find_entrySubsetForPos_eq_some.mp hs
      exact hne
    · intro hne
      exact ⟨_, find_entrySubsetForPos_eq_some.mpr ⟨rfl, hne⟩⟩
  -- key parts without new entries keep their child
  have hsame : ∀ k, k ∉ keys → split (S ∪ newEntries.toFinset) pos k = split S pos k := by
    intro k hk
    have hnil : subEntries newEntries pos k = [] := by
      by_contra hne
      exact hk ((hmem k).mpr hne)
    rw [split_union, ← toFinset_subEntries, hnil, List.toFinset_nil, Finset.union_empty]
  have hfind : ∀ k, find (node.edges pos) k =
      if k ∈ keys then childIdent t (d - 1) (split S pos k)
      else childIdent t (d - 1) (split (S ∪ newEntries.toFinset) pos k) := by
    intro k
    by_cases hk : k ∈ keys
    · rw [if_pos hk]
      exact hedges k
    · rw [if_neg hk, hsame k hk]
      exact hedges k
  set ur₁ := if origin = .copied then
    (entries (node.edges pos)).foldl (ApplyUpdate.retainChild t d newly) ur else ur with hur₁
  have hstart : EdgesBetween t F ns d pos S (S ∪ newEntries.toFinset) (origin = .moved)
      (node.edges pos) ur keys (node.edges pos, ur₁) := by
    cases origin with
    | moved => exact ⟨hfind, hv, fun c _ => by simp [hur₁]⟩
    | copied =>
      have hret := foldl_retainChild_spec newly hF hv hS
        (l := entries (node.edges pos)) (by
          rintro ⟨k, id⟩ hk
          rw [← hedges k]
          exact (mem_entries _ k id).mp hk)
      refine ⟨hfind, hret.1, fun c hc => ?_⟩
      have hocc := occurrences_eq_hitsOn hkn (node.edges pos) c
      have hsum : ((entries (node.edges pos)).map
          (fun e => if e.1 ∈ keys then 0 else hits (some e.2) c)).sum =
          ((entries (node.edges pos)).map
            (fun e => if contains newly e.1 then 0 else hits (some e.2) c)).sum := by
        congr 1
        apply List.map_congr_left
        intro e _
        simp only [hkeys, mem_keys]
      have hd := hret.2 c hc
      simp only [reduceCtorEq, decide_false, Bool.false_eq_true, if_false]
      change _ = _ at hd
      rw [hsum] at hocc
      rw [hur₁, if_pos rfl]
      omega
    | justCreated =>
      refine ⟨hfind, hv, fun c _ => ?_⟩
      have h0 : ∀ k, find (node.edges pos) k = none := by
        intro k
        rw [hedges k, hnew rfl, split_empty, childIdent_empty]
      have hz : occurrences (node.edges pos) c = 0 := by
        rw [occurrences_congr (show ∀ k, find (node.edges pos) k = find (empty : M K RawIdentifier) k from
          fun k => by simp [h0 k])]
        exact occurrences_empty c
      have hh : hitsOn keys (node.edges pos) c = 0 := by
        unfold hitsOn
        apply List.sum_eq_zero
        intro x hx
        obtain ⟨k, -, rfl⟩ := List.mem_map.mp hx
        rw [h0 k, hits_none]
      simp [hur₁, hz, hh]
  unfold ApplyUpdate.insertAtPos
  refine Ensures.bind (show Ensures _ (EdgesBetween t F ns d pos S (S ∪ newEntries.toFinset)
    (origin = .moved) (node.edges pos) ur []) from ?_) fun acc hacc => Ensures.pure hacc.replaced
  refine (Ensures.foldlM (I := fun rest acc => ((rest.map Prod.fst).Nodup ∧
      ∀ p ∈ rest, p.2 = subEntries newEntries pos p.1 ∧ p.2 ≠ []) ∧
      EdgesBetween t F ns d pos S (S ∪ newEntries.toFinset) (origin = .moved) (node.edges pos) ur
        (rest.map Prod.fst) acc) ⟨⟨hkn, ?_⟩, hstart⟩ ?_).mono fun acc hacc => hacc.2
  · rintro ⟨k, sub⟩ hk
    exact find_entrySubsetForPos_eq_some.mp ((mem_entries _ k sub).mp hk)
  · rintro ⟨k, sub⟩ rest acc ⟨⟨hnd, hsub⟩, hacc⟩
    obtain ⟨hkr, hnr⟩ := List.nodup_cons.mp hnd
    obtain ⟨hse, hne⟩ := hsub _ List.mem_cons_self
    dsimp only at hse hne
    subst hse
    have hk := hacc.find k
    rw [List.map_cons, if_pos List.mem_cons_self] at hk
    refine (insertIntoEdge_spec hF hok hacc.valid hp hset hn hdisj hS hT hnew hk hne).mono
      fun acc' hs => ⟨⟨hnr, fun p hp => hsub p (List.mem_cons_of_mem _ hp)⟩, ?_⟩
    exact hacc.settle hkr hs

variable {removed : List (SingleEntry K V)}

theorem eraseFromEdge_spec (hF : InPlay t F)
    (hok : ∀ d' ≤ d - 1, NodesOk t F ns d' ∧ ChildrenStored t F ns d') {release : Bool}
    {acc : M K RawIdentifier × UpdateRequests M K V} {k : K} (hv : acc.2.Valid t F ns (d - 1))
    (hd : 1 < d) (hp : pos < d) (hset : IsEntrySet t d S) (hn : removed.Nodup)
    (hsub : removed.toFinset ⊆ S) (hS : ChildrenAt t F ns d pos S)
    (hT : ∀ k, (split (S \ removed.toFinset) pos k).Nonempty →
      F (d - 1) (split (S \ removed.toFinset) pos k))
    (hk : find acc.1 k = childIdent t (d - 1) (split S pos k))
    (hne : subEntries removed pos k ≠ []) :
    Ensures (ApplyUpdate.eraseFromEdge t ns d release acc (k, subEntries removed pos k))
      (EdgeSettled t F ns d pos S (S \ removed.toFinset) release k acc) := by
  have hchild : split (S \ removed.toFinset) pos k =
      split S pos k \ (subEntries removed pos k).toFinset := by
    rw [hset.split_sdiff hsub hp, toFinset_subEntries]
  have hRsub : (subEntries removed pos k).toFinset ⊆ split S pos k := by
    rw [toFinset_subEntries]
    exact split_subset hsub pos k
  have hSne : (split S pos k).Nonempty := ((List.toFinset_nonempty_iff _).mpr hne).mono hRsub
  have hnodup := (hset.subset hsub).nodup_subEntries hn hp k
  have hTk := hT k
  rw [hchild] at hTk
  have hrem := UpdateRequests.removeFromNode_spec hF hok (by omega) hv (hS.inPlay k hSne)
    (hS.stored k) hnodup hne hRsub hTk release
  unfold ApplyUpdate.eraseFromEdge
  dsimp only
  rw [hk, childIdent_of_nonempty t (d - 1) hSne]
  simp only [Option.bind_eq_bind, Option.bind_some]
  refine Ensures.bind hrem fun res hr => ?_
  rw [← hchild] at hr hTk
  rcases (split (S \ removed.toFinset) pos k).eq_empty_or_nonempty with h0 | h0
  · have hemp : res.1.isEmpty = true := by
      rw [hr.id, h0, HypertrieTrait.ident_empty]
      rfl
    rw [if_pos hemp]
    refine Ensures.pure ⟨fun k' => ?_, hr.valid, hr.delta⟩
    rw [find_erase, h0, childIdent_empty]
  · have hnot : ¬ res.1.isEmpty = true := by
      have := hF.ident_ne_seed (hTk h0) h0
      rw [hr.id]
      simpa [RawIdentifier.isEmpty] using this
    rw [if_neg hnot]
    refine Ensures.pure ⟨fun k' => ?_, hr.valid, hr.delta⟩
    rw [find_assign, hr.id, childIdent_of_nonempty t (d - 1) h0]

theorem eraseFromCopiedEdge_spec (hF : InPlay t F)
    (hok : ∀ d' ≤ d - 1, NodesOk t F ns d' ∧ ChildrenStored t F ns d')
    {acc : M K RawIdentifier × UpdateRequests M K V} {k : K} {id : RawIdentifier}
    (hv : acc.2.Valid t F ns (d - 1)) (hd : 1 < d) (hp : pos < d) (hset : IsEntrySet t d S)
    (hn : removed.Nodup) (hsub : removed.toFinset ⊆ S) (hS : ChildrenAt t F ns d pos S)
    (hT : ∀ k, (split (S \ removed.toFinset) pos k).Nonempty →
      F (d - 1) (split (S \ removed.toFinset) pos k))
    (hk : find acc.1 k = childIdent t (d - 1) (split S pos k))
    (hid : childIdent t (d - 1) (split S pos k) = some id) :
    Ensures (ApplyUpdate.eraseFromCopiedEdge t ns d (entrySubsetForPos removed pos) acc (k, id))
      (EdgeSettled t F ns d pos S (S \ removed.toFinset) false k acc) := by
  unfold ApplyUpdate.eraseFromCopiedEdge
  dsimp only
  cases hf : find (entrySubsetForPos (M := M) removed pos) k with
  | some sub =>
    obtain ⟨rfl, hne⟩ := find_entrySubsetForPos_eq_some.mp hf
    exact eraseFromEdge_spec hF hok hv hd hp hset hn hsub hS hT hk hne
  | none =>
    have hnil := find_entrySubsetForPos_eq_none.mp hf
    have hsame : split (S \ removed.toFinset) pos k = split S pos k := by
      rw [hset.split_sdiff hsub hp, ← toFinset_subEntries, hnil, List.toFinset_nil,
        Finset.sdiff_empty]
    obtain ⟨hne, hide⟩ := childIdent_eq_some.mp hid
    have hC := hS.inPlay k hne
    refine Ensures.pure ⟨fun k' => ?_, hv.incr ?_ ?_ ?_, fun c hc => ?_⟩
    · rw [hsame, ← hk]
      split
      next he => rw [he]
      next => rfl
    · rw [← hide]
      exact hF.ident_ne_seed hC hne
    · intro hf
      rw [← hide] at hf ⊢
      exact Or.inl ((hS.stored k).fn ((hF.isFn_ident_iff hC).mp hf))
    · intro hs
      rw [← hide] at hs ⊢
      exact (hS.stored k).sen (HypertrieTrait.isSen_ident_iff.mp hs)
    · rw [UpdateRequests.delta_applyRefCountDelta 1 hc, hsame, hid, hits_some]
      simp

theorem eraseAtPos_spec (hF : InPlay t F)
    (hok : ∀ d' ≤ d - 1, NodesOk t F ns d' ∧ ChildrenStored t F ns d') {origin : NodeOrigin}
    (ho : origin ≠ .justCreated) {node : FullNode M K V} (hv : ur.Valid t F ns (d - 1)) (hd : 1 < d)
    (hp : pos < d) (hset : IsEntrySet t d S) (hn : removed.Nodup) (hsub : removed.toFinset ⊆ S)
    (hS : ChildrenAt t F ns d pos S)
    (hT : ∀ k, (split (S \ removed.toFinset) pos k).Nonempty →
      F (d - 1) (split (S \ removed.toFinset) pos k))
    (hedges : EdgesOf t d (node.edges pos) S pos) :
    Ensures (ApplyUpdate.eraseAtPos t ns d origin removed (node, ur) pos)
      (EdgesReplaced t F ns d pos (S \ removed.toFinset) (origin = .moved) (node, ur)) := by
  have hgone : ∀ k, split S pos k = ∅ → split (S \ removed.toFinset) pos k = ∅ := by
    intro k hk
    rw [hset.split_sdiff hsub hp, hk, Finset.empty_sdiff]
  unfold ApplyUpdate.eraseAtPos
  refine Ensures.bind (show Ensures _ (EdgesBetween t F ns d pos S (S \ removed.toFinset)
    (origin = .moved) (node.edges pos) ur []) from ?_) fun acc hacc => Ensures.pure hacc.replaced
  unfold ApplyUpdate.eraseFromEdges
  cases origin with
  | justCreated => exact absurd rfl ho
  | copied =>
    -- every edge is visited
    rw [if_pos rfl]
    refine (Ensures.foldlM (I := fun rest acc => ((rest.map Prod.fst).Nodup ∧
        ∀ e ∈ rest, childIdent t (d - 1) (split S pos e.1) = some e.2) ∧
        EdgesBetween t F ns d pos S (S \ removed.toFinset) false (node.edges pos) ur
          (rest.map Prod.fst) acc) ⟨⟨nodup_keys _, ?_⟩, ⟨?_, hv, ?_⟩⟩ ?_).mono
      fun acc hacc => hacc.2
    · rintro ⟨k, id⟩ hk
      rw [← hedges k]
      exact (mem_entries _ k id).mp hk
    · intro k
      by_cases hk : k ∈ (entries (node.edges pos)).map Prod.fst
      · rw [if_pos hk]
        exact hedges k
      · have hnone : find (node.edges pos) k = none := by
          rw [← contains_eq_false_iff]
          rw [mem_keys] at hk
          simpa using hk
        have h0 : split S pos k = ∅ := by
          by_contra hne
          have hsome := childIdent_of_nonempty t (d - 1) (Finset.nonempty_iff_ne_empty.mpr hne)
          rw [← hedges k, hnone] at hsome
          cases hsome
        rw [if_neg hk, hnone, hgone k h0, childIdent_empty]
    · intro c _
      dsimp only
      rw [if_neg Bool.false_ne_true, occurrences_eq_sum]
      show _ = _ + hitsOn _ _ c - hitsOn _ _ c
      omega
    · rintro ⟨k, id⟩ rest acc ⟨⟨hnd, hrest⟩, hacc⟩
      obtain ⟨hkr, hnr⟩ := List.nodup_cons.mp hnd
      have hk := hacc.find k
      rw [List.map_cons, if_pos List.mem_cons_self] at hk
      refine (eraseFromCopiedEdge_spec hF hok hacc.valid hd hp hset hn hsub hS hT hk
        (hrest _ List.mem_cons_self)).mono
        fun acc' hs => ⟨⟨hnr, fun e he => hrest e (List.mem_cons_of_mem _ he)⟩, ?_⟩
      exact hacc.settle hkr hs
  | moved =>
    -- only the edges that change are visited
    rw [if_neg (by decide)]
    refine (Ensures.foldlM (I := fun rest acc => ((rest.map Prod.fst).Nodup ∧
        ∀ p ∈ rest, p.2 = subEntries removed pos p.1 ∧ p.2 ≠ []) ∧
        EdgesBetween t F ns d pos S (S \ removed.toFinset) true (node.edges pos) ur
          (rest.map Prod.fst) acc) ⟨⟨nodup_keys _, ?_⟩, ⟨?_, hv, ?_⟩⟩ ?_).mono
      fun acc hacc => hacc.2
    · rintro ⟨k, sub⟩ hk
      exact find_entrySubsetForPos_eq_some.mp ((mem_entries _ k sub).mp hk)
    · intro k
      split
      next => exact hedges k
      next hk =>
        rw [mem_keys, Bool.not_eq_true, contains_eq_false_iff, find_entrySubsetForPos_eq_none] at hk
        rw [hset.split_sdiff hsub hp, ← toFinset_subEntries, hk, List.toFinset_nil,
          Finset.sdiff_empty]
        exact hedges k
    · intro c _
      dsimp only
      rw [if_pos rfl]
      omega
    · rintro ⟨k, sub⟩ rest acc ⟨⟨hnd, hrest⟩, hacc⟩
      obtain ⟨hkr, hnr⟩ := List.nodup_cons.mp hnd
      obtain ⟨hse, hne⟩ := hrest _ List.mem_cons_self
      dsimp only at hse hne
      subst hse
      have hk := hacc.find k
      rw [List.map_cons, if_pos List.mem_cons_self] at hk
      refine (eraseFromEdge_spec hF hok hacc.valid hd hp hset hn hsub hS hT hk hne).mono
        fun acc' hs => ⟨⟨hnr, fun e he => hrest e (List.mem_cons_of_mem _ he)⟩, ?_⟩
      exact hacc.settle hkr hs

end AtPos

end Hypertrie
