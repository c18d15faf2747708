import Hypertrie.UpdateRequests

/-! What a storage holds at one depth, and the search for the one entry that
remains in a node after a removal. -/

namespace Hypertrie

open UnorderedMap

variable {M : Type → Type → Type} [UnorderedMap M] {K V : Type}
variable [DecidableEq K] [DecidableEq V] [Inhabited K]
variable {t : HypertrieTrait K V} {F : Nat → Finset (SingleEntry K V) → Prop}
variable {ns : NodeStorage M K V} {d : Nat}

/-- Every stored node holds a set in play, under the identifier of that set. -/
structure NodesOk (t : HypertrieTrait K V) (F : Nat → Finset (SingleEntry K V) → Prop)
    (ns : NodeStorage M K V) (d : Nat) : Prop where
  fn : ∀ id n, find (ns.fns d) id = some n →
    ∃ S, F d S ∧ 2 ≤ S.card ∧ id = t.ident d S ∧ n.Represents t d S
  sen : ∀ id n, find (ns.sens d) id = some n →
    t.inPlaceNode d = false ∧ F d {n.entry} ∧ id = t.ident d {n.entry}

/-- There is a node for `S`, unless it needs none. -/
structure Stored (t : HypertrieTrait K V) (ns : NodeStorage M K V) (d : Nat)
    (S : Finset (SingleEntry K V)) : Prop where
  fn : 2 ≤ S.card → contains (ns.fns d) (t.ident d S) = true
  sen : S.card = 1 → t.inPlaceNode d = false → contains (ns.sens d) (t.ident d S) = true

/-- The children of every stored node of this depth are stored. -/
def ChildrenStored (t : HypertrieTrait K V) (F : Nat → Finset (SingleEntry K V) → Prop)
    (ns : NodeStorage M K V) (d : Nat) : Prop :=
  1 < d → ∀ S, F d S → 2 ≤ S.card → contains (ns.fns d) (t.ident d S) = true →
    ∀ pos < d, ∀ k, Stored t ns (d - 1) (split S pos k)

theorem NodesOk.represents (hF : InPlay t F) (h : NodesOk t F ns d) {S : Finset (SingleEntry K V)}
    (hS : F d S) {n : FullNode M K V} (hn : find (ns.fns d) (t.ident d S) = some n) :
    n.Represents t d S := by
  obtain ⟨T, hT, hc, hid, hr⟩ := h.fn _ n hn
  have he : S = T := hF.ident_inj hS hT hid
  rw [he]
  exact hr

theorem NodesOk.sen_entry (hF : InPlay t F) (h : NodesOk t F ns d) {e : SingleEntry K V}
    (he : F d {e}) {n : SingleEntryNode K V} (hn : find (ns.sens d) (t.ident d {e}) = some n) :
    n.entry = e := by
  obtain ⟨-, hT, hid⟩ := h.sen _ n hn
  have hs := hF.ident_inj he hT hid
  exact (Finset.singleton_inj.mp hs).symm

section Search

omit [DecidableEq K] [DecidableEq V] in
theorem combineRes_subEntry {e : SingleEntry K V} {pos : Nat} (hp : pos < e.key.length)
    (hv : e.value ≠ t.zero) : combineRes t (keyAt e.key pos) pos (subEntry pos e) = e := by
  obtain ⟨key, value⟩ := e
  have hins := List.insertIdx_eraseIdx_getElem hp
  have hk : keyAt key pos = key[pos] := by
    simp [keyAt, List.getD_eq_getElem?_getD, List.getElem?_eq_getElem hp]
  unfold combineRes subEntry subkey
  rw [hk, hins]
  exact HypertrieTrait.makeEntry_of_ne_zero t key hv

/-- If visiting finds the results with `P`, every result belongs to something visited, and there
is at most one, then the search returns exactly it. -/
theorem firstResult_spec {α β : Type} {visit : α → Option (Option β)} {l : List α} {Q : β → Prop}
    {P : α → β → Prop}
    (hv : ∀ a ∈ l, Ensures (visit a) (fun r => ∀ b, r = some b ↔ Q b ∧ P a b))
    (hP : ∀ b, Q b → ∃ a ∈ l, P a b) (hu : ∀ b b', Q b → Q b' → b = b') :
    Ensures (firstResult visit l) (fun r => ∀ b, r = some b ↔ Q b) := by
  have hgen : Ensures (firstResult visit l) (fun r => ∀ b, r = some b ↔ Q b ∧ ∃ a ∈ l, P a b) := by
    clear hP
    induction l with
    | nil => exact Ensures.pure (by simp)
    | cons a rest ih =>
      obtain ⟨r, hr, hb⟩ := hv a List.mem_cons_self
      have ih := ih (fun a ha => hv a (List.mem_cons_of_mem _ ha))
      unfold firstResult
      rw [hr]
      cases r with
      | some b =>
        have hq := (hb b).mp rfl
        refine Ensures.pure fun b' => ?_
        constructor
        · rintro ⟨rfl⟩
          exact ⟨hq.1, a, List.mem_cons_self, hq.2⟩
        · rintro ⟨hq', -⟩
          rw [hu b b' hq.1 hq']
      | none =>
        refine Ensures.mono ih fun r hr b => ?_
        rw [hr]
        have hnot : ¬ (Q b ∧ P a b) := fun hq => by simpa using (hb b).mpr hq
        constructor
        · rintro ⟨hq, a', ha', hp⟩
          exact ⟨hq, a', List.mem_cons_of_mem _ ha', hp⟩
        · rintro ⟨hq, a', ha', hp⟩
          rcases List.mem_cons.mp ha' with rfl | ha'
          · exact absurd ⟨hq, hp⟩ hnot
          · exact ⟨hq, a', ha', hp⟩
  refine hgen.mono fun r hr b => ?_
  rw [hr]
  exact ⟨fun h => h.1, fun h => ⟨h, hP b h⟩⟩

omit [DecidableEq K] [DecidableEq V] [Inhabited K] in
theorem eq_of_card_le_one {S : Finset (SingleEntry K V)} (h : S.card ≤ 1) (e e' : SingleEntry K V)
    (he : e ∈ S) (he' : e' ∈ S) : e = e' :=
  Finset.card_le_one.mp h e he e' he'

/-- At depth 1 a value is left out exactly if its key part is removed. -/
theorem mem_removedParts {S : Finset (SingleEntry K V)} {removed : List (SingleEntry K V)} {k : K}
    {v : V} (hset : IsEntrySet t 1 S) (hsub : removed.toFinset ⊆ S) (hmem : ⟨[k], v⟩ ∈ S) :
    k ∈ removed.map (fun e => keyAt e.key 0) ↔ ⟨[k], v⟩ ∈ removed.toFinset := by
  constructor
  · intro h
    obtain ⟨f, hf, hk⟩ := List.mem_map.mp h
    have hfS := hsub (List.mem_toFinset.mpr hf)
    have hlen := hset.length f hfS
    obtain ⟨k', hk'⟩ := List.length_eq_one_iff.mp hlen
    have hkey : f.key = [k] := by
      rw [hk'] at hk ⊢
      simpa [keyAt] using hk
    have hfe := hset.unique f hfS _ hmem hkey
    rw [← hfe]
    exact List.mem_toFinset.mpr hf
  · intro h
    exact List.mem_map.mpr ⟨_, List.mem_toFinset.mp h, rfl⟩

/-- The search at depth 1. -/
theorem retrieveRemainingSingleEntryImpl_one {S : Finset (SingleEntry K V)}
    {removed : List (SingleEntry K V)} {n : FullNode M K V} (hset : IsEntrySet t 1 S)
    (hrep : n.Represents t 1 S) (hsub : removed.toFinset ⊆ S)
    (hone : (S \ removed.toFinset).card ≤ 1) :
    Ensures (retrieveRemainingSingleEntryImpl t ns 1 n removed)
      (fun r => ∀ e, r = some e ↔ e ∈ S \ removed.toFinset) := by
  apply firstResult_spec (P := fun p e => e.key = [p.1]) _ _ (eq_of_card_le_one hone)
  · rintro ⟨k, v⟩ hkv
    have hmem := (hrep.values rfl k v).mp ((mem_entries _ k v).mp hkv)
    have hv : v ≠ t.zero := hset.value _ hmem
    have hrem := mem_removedParts hset hsub hmem
    have huniq : ∀ e ∈ S \ removed.toFinset, e.key = [k] → e = ⟨[k], v⟩ := fun e he hkey =>
      hset.unique e (Finset.mem_sdiff.mp he).1 _ hmem hkey
    rw [HypertrieTrait.makeEntry_of_ne_zero t [k] hv]
    refine Ensures.pure fun e => ?_
    by_cases hk : k ∈ removed.map (fun e => keyAt e.key 0)
    · rw [if_pos hk]
      constructor
      · intro h
        cases h
      · rintro ⟨he, hkey⟩
        have heq := huniq e he hkey
        rw [heq] at he
        exact absurd (hrem.mp hk) (Finset.mem_sdiff.mp he).2
    · rw [if_neg hk]
      constructor
      · rintro ⟨rfl⟩
        exact ⟨Finset.mem_sdiff.mpr ⟨hmem, fun h => hk (hrem.mpr h)⟩, rfl⟩
      · rintro ⟨he, hkey⟩
        rw [huniq e he hkey]
  · intro e he
    have heS := (Finset.mem_sdiff.mp he).1
    obtain ⟨key, v⟩ := e
    obtain ⟨k, rfl⟩ := List.length_eq_one_iff.mp (hset.length _ heS)
    have hf := (hrep.values rfl k v).mpr heS
    exact ⟨(k, v), (mem_entries _ k v).mpr hf, rfl⟩

/-- A remaining entry is put together from its key part and what remains in the child. -/
theorem remaining_of_child {S R : Finset (SingleEntry K V)} {pos : Nat} {k : K}
    {r : Option (SingleEntry K V)} (hset : IsEntrySet t (d + 1) S) (hR : R ⊆ S) (hp : pos < d + 1)
    (hr : ∀ f, r = some f ↔ f ∈ split R pos k) (e : SingleEntry K V) :
    r.map (combineRes t k pos) = some e ↔ e ∈ R ∧ keyAt e.key pos = k := by
  have hback : ∀ e ∈ R, keyAt e.key pos = k → combineRes t k pos (subEntry pos e) = e := by
    rintro e he rfl
    have hlen := hset.length e (hR he)
    exact combineRes_subEntry (by omega) (hset.value e (hR he))
  constructor
  · intro h
    obtain ⟨f, hrf, hfe⟩ := Option.map_eq_some_iff.mp h
    obtain ⟨e', he', hke, hs⟩ := mem_split.mp ((hr f).mp hrf)
    rw [← hs, hback e' he' hke] at hfe
    rw [← hfe]
    exact ⟨he', hke⟩
  · rintro ⟨he, hke⟩
    have hsome := (hr (subEntry pos e)).mpr (mem_split.mpr ⟨e, he, hke, rfl⟩)
    rw [hsome, Option.map_some, hback e he hke]

/-- One edge of a node at depth `d + 1`, if searching the children at depth `d` is right. -/
theorem remainingBehindEdge_spec (hF : InPlay t F) {S : Finset (SingleEntry K V)}
    {removed : List (SingleEntry K V)} {pos : Nat} {k : K}
    {retrieve : FullNode M K V → List (SingleEntry K V) → Option (Option (SingleEntry K V))}
    (hok : NodesOk t F ns d) (hset : IsEntrySet t (d + 1) S) (hp : pos < d + 1)
    (hsub : removed.toFinset ⊆ S) (hone : (S \ removed.toFinset).card ≤ 1)
    (hC : F d (split S pos k)) (hne : (split S pos k).Nonempty) (hst : Stored t ns d (split S pos k))
    (hretrieve : ∀ next child, find (ns.fns d) (t.ident d (split S pos k)) = some child →
      2 ≤ (split S pos k).card → next.toFinset ⊆ split S pos k →
      (split S pos k \ next.toFinset).card ≤ 1 →
      Ensures (retrieve child next) (fun r => ∀ f, r = some f ↔ f ∈ split S pos k \ next.toFinset)) :
    Ensures (remainingBehindEdge t ns d pos (entrySubsetForPos removed pos) retrieve
        (k, t.ident d (split S pos k)))
      (fun r => ∀ e, r = some e ↔ e ∈ S \ removed.toFinset ∧ keyAt e.key pos = k) := by
  have hrest := hset.split_sdiff hsub hp k
  have hpc := hne.card_pos
  have hle : (split (S \ removed.toFinset) pos k).card ≤ 1 := (card_split_le _ pos k).trans hone
  unfold remainingBehindEdge
  dsimp only
  cases hrem : find (entrySubsetForPos (M := M) removed pos) k with
  | none =>
    -- nothing is removed here, so the child holds the remaining entry only
    have hnil := find_entrySubsetForPos_eq_none.mp hrem
    have hR : split removed.toFinset pos k = ∅ := by
      rw [← toFinset_subEntries, hnil, List.toFinset_nil]
    rw [hR, Finset.sdiff_empty] at hrest
    rw [hrest] at hle
    obtain ⟨f, hf⟩ := Finset.card_eq_one.mp (show (split S pos k).card = 1 by omega)
    have hres := remaining_of_child (r := some f) hset Finset.sdiff_subset hp (by
      intro f'
      rw [hrest, hf, Finset.mem_singleton, Option.some.injEq]
      exact eq_comm)
    rw [hf] at hC hst ⊢
    dsimp only
    by_cases hip : t.inPlaceNode d = true
    · rw [if_pos hip, HypertrieTrait.getEntry_ident_singleton hip (hF.entrySet hC)]
      exact Ensures.pure hres
    · obtain ⟨child, hchild⟩ := contains_iff.mp (hst.sen rfl (by simpa using hip))
      have hentry := hok.sen_entry hF hC hchild
      rw [if_neg hip, hchild, Option.map_some, hentry]
      exact Ensures.pure hres
  | some next =>
    obtain ⟨hnext, hnn⟩ := find_entrySubsetForPos_eq_some.mp hrem
    have hR : next.toFinset = split removed.toFinset pos k := by rw [hnext, toFinset_subEntries]
    have hRsub : next.toFinset ⊆ split S pos k := by
      rw [hR]
      exact split_subset hsub pos k
    rw [← hR] at hrest
    rw [hrest] at hle
    dsimp only
    by_cases hsen : t.isSen (t.ident d (split S pos k)) = true
    · rw [if_pos hsen]
      have h1 := HypertrieTrait.isSen_ident_iff.mp hsen
      have hpn : 0 < next.toFinset.card := by
        rw [Finset.card_pos, List.toFinset_nonempty_iff]
        exact hnn
      have heq : next.toFinset = split S pos k := Finset.eq_of_subset_of_card_le hRsub (by omega)
      have hr := remaining_of_child (t := t) (r := none) hset Finset.sdiff_subset hp (by
        intro f
        rw [hrest, heq, Finset.sdiff_self]
        simp)
      exact Ensures.pure hr
    · rw [if_neg hsen]
      have hcard : 2 ≤ (split S pos k).card := by
        have h1 : (split S pos k).card ≠ 1 := fun h => hsen (HypertrieTrait.isSen_ident_iff.mpr h)
        omega
      obtain ⟨child, hchild⟩ := contains_iff.mp (hst.fn hcard)
      simp only [hchild, Option.bind_eq_bind, Option.bind_some]
      refine Ensures.bind (hretrieve next child hchild hcard hRsub hle) fun r hr => Ensures.pure ?_
      rw [← hrest] at hr
      exact remaining_of_child hset Finset.sdiff_subset hp hr

/-- The search finds the entry of `S` that is not removed, if there is one. -/
theorem retrieveRemainingSingleEntryImpl_spec (hF : InPlay t F)
    {S : Finset (SingleEntry K V)} {removed : List (SingleEntry K V)} {n : FullNode M K V}
    (hok : ∀ d' ≤ d, NodesOk t F ns d' ∧ ChildrenStored t F ns d') (hS : F d S) (hc : 2 ≤ S.card)
    (hd : 0 < d) (hn : find (ns.fns d) (t.ident d S) = some n) (hsub : removed.toFinset ⊆ S)
    (hone : (S \ removed.toFinset).card ≤ 1) :
    Ensures (retrieveRemainingSingleEntryImpl t ns d n removed)
      (fun r => ∀ e, r = some e ↔ e ∈ S \ removed.toFinset) := by
  induction d using Nat.strong_induction_on generalizing S removed n with
  | _ d ih =>
  have hset := hF.entrySet hS
  have hrep := (hok d le_rfl).1.represents hF hS hn
  match d, hd with
  | 1, _ => exact retrieveRemainingSingleEntryImpl_one hset hrep hsub hone
  | d + 2, _ =>
    unfold retrieveRemainingSingleEntryImpl
    have hpos := n.maxCardPos_lt (show 0 < d + 2 by omega)
    generalize n.maxCardPos (d + 2) = pos at hpos
    apply firstResult_spec (P := fun p e => keyAt e.key pos = p.1) _ _ (eq_of_card_le_one hone)
    · rintro ⟨k, childId⟩ hk
      have hchild : find (n.edges pos) k = some childId := (mem_entries _ k childId).mp hk
      rw [hrep.edges (by omega) pos hpos k, childIdent_eq_some] at hchild
      obtain ⟨hne, rfl⟩ := hchild
      have hC : F (d + 1) (split S pos k) := hF.split hS hc hpos (by omega) hne
      have hst := (hok (d + 2) le_rfl).2 (by omega) S hS hc (contains_iff.mpr ⟨n, hn⟩) pos hpos k
      apply remainingBehindEdge_spec hF (hok (d + 1) (by omega)).1 hset hpos hsub hone hC hne hst
      intro next child hchild hcard hnsub hnone
      exact ih (d + 1) (by omega) (fun d' hd' => hok d' (by omega)) hC hcard (by omega) hchild
        hnsub hnone
    · intro e he
      have heS := (Finset.mem_sdiff.mp he).1
      have hne : (split S pos (keyAt e.key pos)).Nonempty := ⟨_, mem_split.mpr ⟨e, heS, rfl, rfl⟩⟩
      have hf : find (n.edges pos) (keyAt e.key pos) =
          some (t.ident (d + 1) (split S pos (keyAt e.key pos))) := by
        rw [hrep.edges (by omega) pos hpos]
        exact childIdent_of_nonempty t (d + 1) hne
      exact ⟨_, (mem_entries _ _ _).mpr hf, rfl⟩

theorem retrieveRemainingSingleEntry_spec (hF : InPlay t F)
    {S : Finset (SingleEntry K V)} {removed : List (SingleEntry K V)} {n : FullNode M K V}
    {e : SingleEntry K V} (hok : ∀ d' ≤ d, NodesOk t F ns d' ∧ ChildrenStored t F ns d')
    (hS : F d S) (hc : 2 ≤ S.card) (hd : 0 < d) (hn : find (ns.fns d) (t.ident d S) = some n)
    (hsub : removed.toFinset ⊆ S) (he : S \ removed.toFinset = {e}) :
    retrieveRemainingSingleEntry t ns d n removed = some e := by
  have hone : (S \ removed.toFinset).card ≤ 1 := by rw [he]; rfl
  obtain ⟨r, hr, hspec⟩ := retrieveRemainingSingleEntryImpl_spec hF hok hS hc hd hn hsub hone
  have hre : r = some e := (hspec e).mpr (by rw [he]; exact Finset.mem_singleton_self e)
  simp [retrieveRemainingSingleEntry, hr, hre]

end Search

end Hypertrie
