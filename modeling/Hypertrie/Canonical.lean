import Hypertrie.ExecuteDepth

/-! Canonical storages: exactly the nodes of the live roots, each counting the
edges and the handles that lead to it. -/

namespace Hypertrie

open UnorderedMap

variable {M : Type → Type → Type} [UnorderedMap M] {K V : Type}
variable [DecidableEq K] [DecidableEq V] [Inhabited K]

/-- A handle stands for a set of entries of one depth. -/
structure Root (K V : Type) where
  depth : Nat
  entries : Finset (SingleEntry K V)
  deriving DecidableEq

/-- The sets got from the roots by splitting, as long as there is more than one entry. -/
inductive Live (roots : Multiset (Root K V)) : Nat → Finset (SingleEntry K V) → Prop where
  | root {d S} : ⟨d, S⟩ ∈ roots → S.Nonempty → Live roots d S
  | child {d S pos k} : Live roots d S → 2 ≤ S.card → pos < d → 1 < d → (split S pos k).Nonempty →
      Live roots (d - 1) (split S pos k)

/-- The handles that hold the node with this identifier. An empty handle holds none. -/
def rootCount (t : HypertrieTrait K V) (roots : Multiset (Root K V)) (d : Nat) (id : RawIdentifier) :
    Nat :=
  roots.countP (fun r => r.depth = d ∧ childIdent t r.depth r.entries = some id)

/-- The handles stand for entry sets of positive depth; a handle of depth 0 holds no node. -/
def RootsOk (t : HypertrieTrait K V) (roots : Multiset (Root K V)) : Prop :=
  ∀ r ∈ roots, 0 < r.depth ∧ IsEntrySet t r.depth r.entries

structure Canonical (t : HypertrieTrait K V) (ns : NodeStorage M K V) (roots : Multiset (Root K V)) :
    Prop where
  rootsOk : RootsOk t roots
  fn_iff : ∀ d id, contains (ns.fns d) id = true ↔
    ∃ S, Live roots d S ∧ 2 ≤ S.card ∧ t.ident d S = id
  sen_iff : ∀ d id, contains (ns.sens d) id = true ↔
    ∃ S, Live roots d S ∧ S.card = 1 ∧ t.inPlaceNode d = false ∧ t.ident d S = id
  fn_node : ∀ {d S n}, Live roots d S → 2 ≤ S.card → find (ns.fns d) (t.ident d S) = some n →
    n.Represents t d S
  sen_node : ∀ {d e n}, Live roots d {e} → find (ns.sens d) (t.ident d {e}) = some n → n.entry = e
  fn_refs : ∀ {d id n}, find (ns.fns d) id = some n →
    n.refCount = NodeStorage.edgesTo (d + 1) (ns.fns (d + 1)) id + rootCount t roots d id
  sen_refs : ∀ {d id n}, find (ns.sens d) id = some n →
    n.refCount = NodeStorage.edgesTo (d + 1) (ns.fns (d + 1)) id + rootCount t roots d id

/-- Identifiers do not collide: no two live sets of one depth have the same hash, and none has the
hash of the empty set. -/
structure NoCollision (t : HypertrieTrait K V) (roots : Multiset (Root K V)) : Prop where
  hash_inj : ∀ {d S T}, Live roots d S → Live roots d T → t.hashOf S = t.hashOf T → S = T
  hash_ne_seed : ∀ {d S}, Live roots d S → t.hashOf S ≠ seed

section Live

variable {t : HypertrieTrait K V} {roots roots' : Multiset (Root K V)} {d : Nat}
  {S : Finset (SingleEntry K V)}

theorem Live.nonempty (h : Live roots d S) : S.Nonempty := by
  cases h with
  | root _ hn => exact hn
  | child _ _ _ _ hn => exact hn

theorem Live.isEntrySet (hr : RootsOk t roots) (h : Live roots d S) : IsEntrySet t d S := by
  induction h with
  | root hm _ => exact (hr _ hm).2
  | child _ _ hp _ _ ih => exact ih.split hp _

theorem Live.depth_pos (hr : RootsOk t roots) (h : Live roots d S) : 0 < d := by
  cases h with
  | root hm _ => exact (hr _ hm).1
  | child _ _ _ hd _ => omega

theorem Live.depth_le (h : Live roots d S) : ∃ r ∈ roots, d ≤ r.depth := by
  induction h with
  | root hm _ => exact ⟨_, hm, le_rfl⟩
  | child _ _ _ _ _ ih =>
    obtain ⟨r, hr, hle⟩ := ih
    exact ⟨r, hr, by omega⟩

theorem Live.mono (h : Live roots d S) (hs : ∀ r ∈ roots, r ∈ roots') : Live roots' d S := by
  induction h with
  | root hm hn => exact .root (hs _ hm) hn
  | child _ hc hp hd hn ih => exact .child ih hc hp hd hn

theorem NoCollision.mono (h : NoCollision t roots') (hs : ∀ r ∈ roots, r ∈ roots') :
    NoCollision t roots :=
  ⟨fun hS hT => h.hash_inj (hS.mono hs) (hT.mono hs), fun hS => h.hash_ne_seed (hS.mono hs)⟩

/-- The live sets are what an update of their handles deals with. -/
theorem NoCollision.inPlay (h : NoCollision t roots) (hr : RootsOk t roots) :
    InPlay t (Live roots) :=
  ⟨fun hS => hS.isEntrySet hr, fun hS hc hp hd hn => .child hS hc hp hd hn, h.hash_inj,
    fun hS _ => h.hash_ne_seed hS⟩

theorem rootCount_pos {id : RawIdentifier} : 0 < rootCount t roots d id ↔
    ∃ S, ⟨d, S⟩ ∈ roots ∧ S.Nonempty ∧ t.ident d S = id := by
  unfold rootCount
  rw [Multiset.countP_pos]
  constructor
  · rintro ⟨⟨d', S⟩, hm, hd, hid⟩
    subst hd
    exact ⟨S, hm, childIdent_eq_some.mp hid⟩
  · rintro ⟨S, hm, hid⟩
    exact ⟨⟨d, S⟩, hm, rfl, childIdent_eq_some.mpr hid⟩

theorem rootCount_cons_self (S : Finset (SingleEntry K V)) (id : RawIdentifier) :
    (rootCount t (⟨d, S⟩ ::ₘ roots) d id : Int) =
      rootCount t roots d id + hits (childIdent t d S) id := by
  unfold rootCount hits
  by_cases h : childIdent t d S = some id
  · rw [Multiset.countP_cons_of_pos _ ⟨rfl, h⟩, if_pos h]
    push_cast
    rfl
  · rw [Multiset.countP_cons_of_neg _ fun hn => h hn.2, if_neg h, add_zero]

theorem rootCount_cons_ne {d' : Nat} (h : d' ≠ d) (S : Finset (SingleEntry K V))
    (id : RawIdentifier) : rootCount t (⟨d, S⟩ ::ₘ roots) d' id = rootCount t roots d' id :=
  Multiset.countP_cons_of_neg _ fun hn => h hn.1.symm

/-- The live sets below one set, by recursion on its depth. -/
def liveSets : Nat → Finset (SingleEntry K V) → Finset (Nat × Finset (SingleEntry K V))
  | 0, S => if S = ∅ then ∅ else {(0, S)}
  | d + 1, S =>
    if S = ∅ then ∅
    else if 2 ≤ S.card ∧ 0 < d then
      insert (d + 1, S) ((Finset.range (d + 1)).biUnion fun pos =>
        (keyParts S pos).biUnion fun k => liveSets d (split S pos k))
    else {(d + 1, S)}

theorem self_mem_liveSets (hS : S.Nonempty) : (d, S) ∈ liveSets d S := by
  cases d with
  | zero => simp [liveSets, hS.ne_empty]
  | succ d =>
    unfold liveSets
    rw [if_neg hS.ne_empty]
    split
    · exact Finset.mem_insert_self _ _
    · exact Finset.mem_singleton_self _

theorem liveSets_split {d' pos : Nat} {k : K} {T : Finset (SingleEntry K V)}
    (h : (d', S) ∈ liveSets d T) (hc : 2 ≤ S.card) (hp : pos < d') (hd : 1 < d')
    (hn : (split S pos k).Nonempty) : (d' - 1, split S pos k) ∈ liveSets d T := by
  induction d generalizing T with
  | zero =>
    unfold liveSets at h
    split at h
    · simp at h
    · obtain ⟨rfl, -⟩ := Prod.mk.injEq _ _ _ _ ▸ Finset.mem_singleton.mp h
      exact absurd hd (by omega)
  | succ d ih =>
    unfold liveSets at h ⊢
    split at h
    · simp at h
    next hT =>
      rw [if_neg hT]
      split at h
      next hcard =>
        rw [if_pos hcard]
        rcases Finset.mem_insert.mp h with h | h
        · obtain ⟨rfl, rfl⟩ := Prod.mk.inj h
          refine Finset.mem_insert_of_mem (Finset.mem_biUnion.mpr ⟨pos, Finset.mem_range.mpr hp, ?_⟩)
          exact Finset.mem_biUnion.mpr ⟨k, mem_keyParts.mpr hn, self_mem_liveSets hn⟩
        · obtain ⟨pos', hpos', h⟩ := Finset.mem_biUnion.mp h
          obtain ⟨k', hk', h⟩ := Finset.mem_biUnion.mp h
          refine Finset.mem_insert_of_mem (Finset.mem_biUnion.mpr ⟨pos', hpos', ?_⟩)
          exact Finset.mem_biUnion.mpr ⟨k', hk', ih h⟩
      next hcard =>
        obtain ⟨rfl, rfl⟩ := Prod.mk.inj (Finset.mem_singleton.mp h)
        exact absurd ⟨hc, by omega⟩ hcard

theorem Live.mem_liveSets (h : Live roots d S) : ∃ r ∈ roots, (d, S) ∈ liveSets r.depth r.entries := by
  induction h with
  | root hm hn => exact ⟨_, hm, self_mem_liveSets hn⟩
  | child _ hc hp hd hn ih =>
    obtain ⟨r, hr, h⟩ := ih
    exact ⟨r, hr, liveSets_split h hc hp hd hn⟩

/-- On given roots the absence of collisions can be computed. -/
theorem noCollision_of_liveSets
    (hinj : ∀ p ∈ roots.toFinset.biUnion fun r => liveSets r.depth r.entries,
      ∀ q ∈ roots.toFinset.biUnion fun r => liveSets r.depth r.entries,
        p.1 = q.1 → t.hashOf p.2 = t.hashOf q.2 → p.2 = q.2)
    (hseed : ∀ p ∈ roots.toFinset.biUnion fun r => liveSets r.depth r.entries,
      t.hashOf p.2 ≠ seed) : NoCollision t roots := by
  have hmem : ∀ {d S}, Live roots d S →
      (d, S) ∈ roots.toFinset.biUnion fun r => liveSets r.depth r.entries := by
    intro d S h
    obtain ⟨r, hr, hl⟩ := h.mem_liveSets
    exact Finset.mem_biUnion.mpr ⟨r, Multiset.mem_toFinset.mpr hr, hl⟩
  exact ⟨fun hS hT he => hinj _ (hmem hS) _ (hmem hT) rfl he, fun hS => hseed _ (hmem hS)⟩

end Live

section Storage

variable {t : HypertrieTrait K V} {F : Nat → Finset (SingleEntry K V) → Prop}
variable {ns : NodeStorage M K V} {roots : Multiset (Root K V)} {d : Nat}
  {S : Finset (SingleEntry K V)} {id : RawIdentifier}

/-- The same depth by depth: every node is right and counts what leads to it, and something does.
Nothing is stored from some depth on. -/
structure StorageOk (t : HypertrieTrait K V) (F : Nat → Finset (SingleEntry K V) → Prop)
    (ns : NodeStorage M K V) (roots : Multiset (Root K V)) : Prop where
  nodes : ∀ d, NodesOk t F ns d
  refs : ∀ d id, Tracked t d id → ns.refCount t d id =
    NodeStorage.edgesTo (d + 1) (ns.fns (d + 1)) id + rootCount t roots d id
  fn_pos : ∀ d id n, find (ns.fns d) id = some n → 0 < n.refCount
  sen_pos : ∀ d id n, find (ns.sens d) id = some n → 0 < n.refCount
  deep : ∃ bound, ∀ d > bound, ∀ id, find (ns.fns d) id = none

theorem NodesOk.isFn_of_find (hF : InPlay t F) (h : NodesOk t F ns d) {n : FullNode M K V}
    (hn : find (ns.fns d) id = some n) : t.isFn id = true := by
  obtain ⟨S, hS, hc, rfl, -⟩ := h.fn id n hn
  exact (hF.isFn_ident_iff hS).mpr hc

theorem NodesOk.isSen_of_find (h : NodesOk t F ns d) {n : SingleEntryNode K V}
    (hn : find (ns.sens d) id = some n) : t.isSen id = true := by
  obtain ⟨-, -, rfl⟩ := h.sen id n hn
  exact HypertrieTrait.isSen_ident_singleton _

theorem NodesOk.refCount_fn (hF : InPlay t F) (h : NodesOk t F ns d) {n : FullNode M K V}
    (hn : find (ns.fns d) id = some n) : ns.refCount t d id = n.refCount := by
  unfold NodeStorage.refCount
  rw [h.isFn_of_find hF hn, if_pos rfl, NodeStorage.fnRefs_of_find hn]

theorem NodesOk.refCount_sen (h : NodesOk t F ns d) {n : SingleEntryNode K V}
    (hn : find (ns.sens d) id = some n) : ns.refCount t d id = n.refCount := by
  unfold NodeStorage.refCount
  rw [UpdateRequests.isFn_of_isSen (h.isSen_of_find hn), if_neg Bool.false_ne_true,
    NodeStorage.senRefs_of_find hn]

omit [DecidableEq K] [DecidableEq V] [Inhabited K] in
/-- A node that something refers to is stored. -/
theorem NodeStorage.stored_of_refCount_pos (h : 0 < ns.refCount t d id) :
    (t.isFn id = true → contains (ns.fns d) id = true) ∧
      (t.isFn id = false → contains (ns.sens d) id = true) := by
  unfold NodeStorage.refCount at h
  constructor
  · intro hf
    rw [hf, if_pos rfl] at h
    by_contra hn
    rw [NodeStorage.fnRefs_of_none (by simpa [contains] using hn)] at h
    exact absurd h (lt_irrefl 0)
  · intro hf
    rw [hf, if_neg Bool.false_ne_true] at h
    by_contra hn
    rw [NodeStorage.senRefs_of_none (by simpa [contains] using hn)] at h
    exact absurd h (lt_irrefl 0)

/-- An edge leads to a node of the set that belongs to it. -/
theorem exists_split_of_edgesTo (h : NodesOk t F ns d) (he : 0 < NodeStorage.edgesTo d (ns.fns d) id) :
    1 < d ∧ ∃ S n pos k, find (ns.fns d) (t.ident d S) = some n ∧ F d S ∧ 2 ≤ S.card ∧ pos < d ∧
      (split S pos k).Nonempty ∧ t.ident (d - 1) (split S pos k) = id := by
  obtain ⟨parent, n, hn, hpos⟩ := NodeStorage.edgesTo_pos.mp he
  obtain ⟨hd, pos, hp, k, hk⟩ := FullNode.edgesTo_pos.mp hpos
  obtain ⟨S, hS, hc, rfl, hrep⟩ := h.fn parent n hn
  rw [hrep.edges hd pos hp k] at hk
  exact ⟨hd, S, n, pos, k, hn, hS, hc, hp, childIdent_eq_some.mp hk⟩

theorem edgesTo_split_pos (hF : InPlay t F) (h : NodesOk t F ns d) (hS : F d S)
    (hst : contains (ns.fns d) (t.ident d S) = true) {pos : Nat} {k : K} (hd : 1 < d) (hp : pos < d)
    (hn : (split S pos k).Nonempty) :
    0 < NodeStorage.edgesTo d (ns.fns d) (t.ident (d - 1) (split S pos k)) := by
  obtain ⟨n, hfind⟩ := contains_iff.mp hst
  have hrep := h.represents hF hS hfind
  refine NodeStorage.edgesTo_pos.mpr ⟨_, n, hfind, FullNode.edgesTo_pos.mpr ⟨hd, pos, hp, k, ?_⟩⟩
  rw [hrep.edges hd pos hp k, childIdent_of_nonempty t (d - 1) hn]

/-- A set whose node is referred to has one. -/
theorem stored_of_referred (hF : InPlay t F) (hS : F d S)
    (hr : Tracked t d (t.ident d S) → 0 < ns.refCount t d (t.ident d S)) : Stored t ns d S := by
  constructor
  · intro hc
    have hf := (hF.isFn_ident_iff hS).mpr hc
    exact (NodeStorage.stored_of_refCount_pos (hr (Or.inl hf))).1 hf
  · intro hc hp
    have hs : t.isSen (t.ident d S) = true := HypertrieTrait.isSen_ident_iff.mpr hc
    exact (NodeStorage.stored_of_refCount_pos (hr (Or.inr hp))).2 (UpdateRequests.isFn_of_isSen hs)

/-- Counting the edges from above is enough to keep the children of a depth stored. -/
theorem childrenStored_of_refs (hF : InPlay t F) (hok : NodesOk t F ns d)
    (hrefs : ∀ id, Tracked t (d - 1) id →
      NodeStorage.edgesTo d (ns.fns d) id ≤ ns.refCount t (d - 1) id) :
    ChildrenStored t F ns d := by
  intro hd S hS hc hst pos hp k
  rcases (split S pos k).eq_empty_or_nonempty with h0 | hn
  · rw [h0]
    exact ⟨fun h => by simp at h, fun h => by simp at h⟩
  · refine stored_of_referred hF (hF.split hS hc hp hd hn) fun ht => ?_
    exact (edgesTo_split_pos hF hok hS hst hd hp hn).trans_le (hrefs _ ht)

theorem StorageOk.childrenStored (hF : InPlay t F) (h : StorageOk t F ns roots) (d : Nat) :
    ChildrenStored t F ns d := by
  rcases Nat.eq_zero_or_pos d with rfl | hd
  · exact fun h => absurd h (by omega)
  · refine childrenStored_of_refs hF (h.nodes d) fun id ht => ?_
    have hrefs := h.refs (d - 1) id ht
    rw [show d - 1 + 1 = d by omega] at hrefs
    omega

theorem StorageOk.stored_root (hF : InPlay t F) (h : StorageOk t F ns roots) (hS : F d S)
    (hn : S.Nonempty) (hr : ⟨d, S⟩ ∈ roots) : Stored t ns d S := by
  refine stored_of_referred hF hS fun ht => ?_
  have hpos := rootCount_pos (t := t).mpr ⟨S, hr, hn, rfl⟩
  have hrefs := h.refs d _ ht
  omega

theorem StorageOk.stored (hF : InPlay t F) (h : StorageOk t F ns roots)
    (hlive : ∀ {d S}, Live roots d S → F d S) (hS : Live roots d S) : Stored t ns d S := by
  induction hS with
  | root hm hn => exact h.stored_root hF (hlive (.root hm hn)) hn hm
  | child hS hc hp hd hn ih => exact h.childrenStored hF _ hd _ (hlive hS) hc (ih.fn hc) _ hp _

/-- What refers to a node is a handle or a node one depth above. -/
theorem StorageOk.live_of_refCount_pos (h : StorageOk t F ns roots)
    (habove : ∀ S, F (d + 1) S → 2 ≤ S.card →
      contains (ns.fns (d + 1)) (t.ident (d + 1) S) = true → Live roots (d + 1) S)
    (ht : Tracked t d id) (hpos : 0 < ns.refCount t d id) :
    ∃ S, Live roots d S ∧ t.ident d S = id := by
  rw [h.refs d id ht] at hpos
  by_cases hr : 0 < rootCount t roots d id
  · obtain ⟨S, hm, hn, hid⟩ := rootCount_pos.mp hr
    exact ⟨S, .root hm hn, hid⟩
  · obtain ⟨hd, S, n, pos, k, hfind, hS, hc, hp, hn, hid⟩ :=
      exists_split_of_edgesTo (h.nodes (d + 1))
        (show 0 < NodeStorage.edgesTo (d + 1) (ns.fns (d + 1)) id by omega)
    exact ⟨_, .child (habove S hS hc (contains_iff.mpr ⟨n, hfind⟩)) hc hp hd hn, hid⟩

theorem StorageOk.live_of_stored (hF : InPlay t F) (h : StorageOk t F ns roots)
    (hlive : ∀ {d S}, Live roots d S → F d S) (hS : F d S) (hc : 2 ≤ S.card)
    (hst : contains (ns.fns d) (t.ident d S) = true) : Live roots d S := by
  obtain ⟨bound, hbound⟩ := h.deep
  -- from the greatest depth downwards
  induction hk : bound + 1 - d generalizing d S with
  | zero =>
    obtain ⟨n, hn⟩ := contains_iff.mp hst
    rw [hbound d (by omega)] at hn
    cases hn
  | succ k ih =>
    obtain ⟨n, hn⟩ := contains_iff.mp hst
    have hf := (h.nodes d).isFn_of_find hF hn
    have hpos : 0 < ns.refCount t d (t.ident d S) := by
      rw [(h.nodes d).refCount_fn hF hn]
      exact h.fn_pos d _ n hn
    obtain ⟨T, hT, hid⟩ := h.live_of_refCount_pos
      (fun S' hS' hc' hst' => ih hS' hc' hst' (by omega)) (Or.inl hf) hpos
    rw [← hF.ident_inj (hlive hT) hS hid]
    exact hT

theorem StorageOk.mono {G : Nat → Finset (SingleEntry K V) → Prop} (h : StorageOk t F ns roots)
    (hFG : ∀ {d S}, F d S → G d S) : StorageOk t G ns roots := by
  refine ⟨fun d => ⟨?_, ?_⟩, h.refs, h.fn_pos, h.sen_pos, h.deep⟩
  · intro id n hn
    obtain ⟨S, hS, hrest⟩ := (h.nodes d).fn id n hn
    exact ⟨S, hFG hS, hrest⟩
  · intro id n hn
    obtain ⟨hp, hS, hid⟩ := (h.nodes d).sen id n hn
    exact ⟨hp, hFG hS, hid⟩

/-- Only live sets have nodes. -/
theorem StorageOk.live (hF : InPlay t F) (h : StorageOk t F ns roots)
    (hlive : ∀ {d S}, Live roots d S → F d S) : StorageOk t (Live roots) ns roots := by
  have habove : ∀ d S, F d S → 2 ≤ S.card → contains (ns.fns d) (t.ident d S) = true →
      Live roots d S := fun d S hS hc hst => h.live_of_stored hF hlive hS hc hst
  refine ⟨fun d => ⟨?_, ?_⟩, h.refs, h.fn_pos, h.sen_pos, h.deep⟩
  · intro id n hn
    obtain ⟨S, hS, hc, rfl, hrep⟩ := (h.nodes d).fn id n hn
    exact ⟨S, habove d S hS hc (contains_iff.mpr ⟨n, hn⟩), hc, rfl, hrep⟩
  · intro id n hn
    obtain ⟨hp, he, rfl⟩ := (h.nodes d).sen id n hn
    have hpos : 0 < ns.refCount t d (t.ident d {n.entry}) := by
      rw [(h.nodes d).refCount_sen hn]
      exact h.sen_pos d _ n hn
    obtain ⟨S, hS, hid⟩ := h.live_of_refCount_pos (habove (d + 1)) (Or.inr hp) hpos
    rw [hF.ident_inj (hlive hS) he hid] at hS
    exact ⟨hp, hS, rfl⟩

theorem StorageOk.canonical (h : StorageOk t (Live roots) ns roots) (hn : NoCollision t roots)
    (hr : RootsOk t roots) : Canonical t ns roots := by
  have hF := hn.inPlay hr
  refine ⟨hr, ?_, ?_, ?_, ?_, ?_, ?_⟩
  · intro d id
    constructor
    · intro hc
      obtain ⟨n, hfind⟩ := contains_iff.mp hc
      obtain ⟨S, hS, hcard, rfl, -⟩ := (h.nodes d).fn id n hfind
      exact ⟨S, hS, hcard, rfl⟩
    · rintro ⟨S, hS, hcard, rfl⟩
      exact (h.stored hF id hS).fn hcard
  · intro d id
    constructor
    · intro hc
      obtain ⟨n, hfind⟩ := contains_iff.mp hc
      obtain ⟨hp, hS, rfl⟩ := (h.nodes d).sen id n hfind
      exact ⟨_, hS, Finset.card_singleton _, hp, rfl⟩
    · rintro ⟨S, hS, hcard, hp, rfl⟩
      exact (h.stored hF id hS).sen hcard hp
  · intro d S n hS _ hfind
    exact (h.nodes d).represents hF hS hfind
  · intro d e n he hfind
    exact (h.nodes d).sen_entry hF he hfind
  · intro d id n hfind
    rw [← (h.nodes d).refCount_fn hF hfind]
    exact h.refs d id (Or.inl ((h.nodes d).isFn_of_find hF hfind))
  · intro d id n hfind
    obtain ⟨hp, -, -⟩ := (h.nodes d).sen id n hfind
    rw [← (h.nodes d).refCount_sen hfind]
    exact h.refs d id (Or.inr hp)

theorem Canonical.nodesOk (h : Canonical t ns roots) (d : Nat) : NodesOk t (Live roots) ns d := by
  constructor
  · intro id n hfind
    obtain ⟨S, hS, hc, rfl⟩ := (h.fn_iff d id).mp (contains_iff.mpr ⟨n, hfind⟩)
    exact ⟨S, hS, hc, rfl, h.fn_node hS hc hfind⟩
  · intro id n hfind
    obtain ⟨S, hS, hc, hp, rfl⟩ := (h.sen_iff d id).mp (contains_iff.mpr ⟨n, hfind⟩)
    obtain ⟨e, rfl⟩ := Finset.card_eq_one.mp hc
    rw [h.sen_node hS hfind]
    exact ⟨hp, hS, rfl⟩

/-- What is referred to by a handle or an edge is live. -/
theorem Canonical.live_of_referred (h : Canonical t ns roots)
    (hpos : 0 < NodeStorage.edgesTo (d + 1) (ns.fns (d + 1)) id + rootCount t roots d id) :
    ∃ S, Live roots d S ∧ t.ident d S = id := by
  by_cases hr : 0 < rootCount t roots d id
  · obtain ⟨S, hm, hn, hid⟩ := rootCount_pos.mp hr
    exact ⟨S, .root hm hn, hid⟩
  · obtain ⟨hd, S, n, pos, k, -, hS, hc, hp, hn, hid⟩ :=
      exists_split_of_edgesTo (h.nodesOk (d + 1))
        (show 0 < NodeStorage.edgesTo (d + 1) (ns.fns (d + 1)) id by omega)
    exact ⟨_, .child hS hc hp hd hn, hid⟩

theorem Canonical.referred (h : Canonical t ns roots) (hn : NoCollision t roots)
    (hS : Live roots d S) :
    0 < NodeStorage.edgesTo (d + 1) (ns.fns (d + 1)) (t.ident d S) +
      rootCount t roots d (t.ident d S) := by
  cases hS with
  | root hm hne =>
    have := rootCount_pos (t := t).mpr ⟨S, hm, hne, rfl⟩
    omega
  | @child d' S' pos k hS' hc hp hd hne =>
    have hst := (h.fn_iff d' _).mpr ⟨S', hS', hc, rfl⟩
    have := edgesTo_split_pos (hn.inPlay h.rootsOk) (h.nodesOk d') hS' hst hd hp hne
    rw [show d' - 1 + 1 = d' by omega]
    omega

theorem Canonical.storageOk (h : Canonical t ns roots) (hn : NoCollision t roots) :
    StorageOk t (Live roots) ns roots := by
  have hF := hn.inPlay h.rootsOk
  refine ⟨h.nodesOk, ?_, ?_, ?_, ?_⟩
  · intro d id ht
    by_cases hpos : 0 < ns.refCount t d id
    · obtain ⟨hfn, hsen⟩ := NodeStorage.stored_of_refCount_pos hpos
      cases hf : t.isFn id with
      | true =>
        obtain ⟨n, hfind⟩ := contains_iff.mp (hfn hf)
        rw [(h.nodesOk d).refCount_fn hF hfind, h.fn_refs hfind]
      | false =>
        obtain ⟨n, hfind⟩ := contains_iff.mp (hsen hf)
        rw [(h.nodesOk d).refCount_sen hfind, h.sen_refs hfind]
    · -- nothing leads to a node that is not stored
      by_contra hne
      obtain ⟨S, hS, rfl⟩ := h.live_of_referred (show 0 < NodeStorage.edgesTo (d + 1) (ns.fns (d + 1)) id +
        rootCount t roots d id by omega)
      have href := h.referred hn hS
      by_cases hc : 2 ≤ S.card
      · obtain ⟨n, hfind⟩ := contains_iff.mp ((h.fn_iff d _).mpr ⟨S, hS, hc, rfl⟩)
        rw [(h.nodesOk d).refCount_fn hF hfind, h.fn_refs hfind] at hpos
        exact hpos href
      · have hcS := hS.nonempty.card_pos
        have hc1 : S.card = 1 := by omega
        have hf : t.isFn (t.ident d S) ≠ true := fun hf => hc ((hF.isFn_ident_iff hS).mp hf)
        obtain ⟨n, hfind⟩ := contains_iff.mp
          ((h.sen_iff d _).mpr ⟨S, hS, hc1, ht.resolve_left hf, rfl⟩)
        rw [(h.nodesOk d).refCount_sen hfind, h.sen_refs hfind] at hpos
        exact hpos href
  · intro d id n hfind
    obtain ⟨S, hS, -, rfl⟩ := (h.fn_iff d id).mp (contains_iff.mpr ⟨n, hfind⟩)
    rw [h.fn_refs hfind]
    exact h.referred hn hS
  · intro d id n hfind
    obtain ⟨S, hS, -, -, rfl⟩ := (h.sen_iff d id).mp (contains_iff.mpr ⟨n, hfind⟩)
    rw [h.sen_refs hfind]
    exact h.referred hn hS
  · refine ⟨(roots.map Root.depth).sup, fun d hd id => contains_eq_false_iff.mp ?_⟩
    by_contra hc
    obtain ⟨S, hS, -, -⟩ := (h.fn_iff d id).mp (by simpa using hc)
    obtain ⟨r, hr, hle⟩ := hS.depth_le
    have := Multiset.le_sup (Multiset.mem_map_of_mem Root.depth hr)
    omega

end Storage

end Hypertrie
