import Hypertrie.Library.UnorderedMap
import Hypertrie.Library.Ensures
import Hypertrie.Trait

/-! Sets of entries and how fixing a key part at one position splits them.
The list functions are the ones the update code computes with. -/

namespace Hypertrie

open UnorderedMap

variable {K V : Type} [DecidableEq K] [DecidableEq V] [Inhabited K]

/-- The contents of a hypertrie: keys of one length, one non-zero value for each key. -/
structure IsEntrySet (t : HypertrieTrait K V) (depth : Nat) (S : Finset (SingleEntry K V)) : Prop where
  length : ∀ e ∈ S, e.key.length = depth
  value : ∀ e ∈ S, e.value ≠ t.zero
  unique : ∀ e ∈ S, ∀ e' ∈ S, e.key = e'.key → e = e'

def subEntry (pos : Nat) (e : SingleEntry K V) : SingleEntry K V := ⟨subkey e.key pos, e.value⟩

/-- The entries with key part `k` at `pos`, without that position. -/
def split (S : Finset (SingleEntry K V)) (pos : Nat) (k : K) : Finset (SingleEntry K V) :=
  (S.filter (fun e => keyAt e.key pos = k)).image (subEntry pos)

/-- The key parts that occur at `pos`. -/
def keyParts (S : Finset (SingleEntry K V)) (pos : Nat) : Finset K :=
  S.image (fun e => keyAt e.key pos)

theorem mem_split {S : Finset (SingleEntry K V)} {pos : Nat} {k : K} {e : SingleEntry K V} :
    e ∈ split S pos k ↔ ∃ e' ∈ S, keyAt e'.key pos = k ∧ subEntry pos e' = e := by
  simp [split, and_assoc]

theorem mem_keyParts {S : Finset (SingleEntry K V)} {pos : Nat} {k : K} :
    k ∈ keyParts S pos ↔ (split S pos k).Nonempty := by
  constructor
  · intro h
    obtain ⟨e, he, rfl⟩ := Finset.mem_image.mp h
    exact ⟨subEntry pos e, mem_split.mpr ⟨e, he, rfl, rfl⟩⟩
  · rintro ⟨e, he⟩
    obtain ⟨e', he', hk, -⟩ := mem_split.mp he
    exact Finset.mem_image.mpr ⟨e', he', hk⟩

@[simp]
theorem split_empty (pos : Nat) (k : K) : split (∅ : Finset (SingleEntry K V)) pos k = ∅ := rfl

theorem split_union (S T : Finset (SingleEntry K V)) (pos : Nat) (k : K) :
    split (S ∪ T) pos k = split S pos k ∪ split T pos k := by
  simp [split, Finset.filter_union, Finset.image_union]

theorem split_subset {S T : Finset (SingleEntry K V)} (h : S ⊆ T) (pos : Nat) (k : K) :
    split S pos k ⊆ split T pos k :=
  Finset.image_subset_image (Finset.filter_subset_filter _ h)

theorem card_split_le (S : Finset (SingleEntry K V)) (pos : Nat) (k : K) :
    (split S pos k).card ≤ S.card :=
  Finset.card_image_le.trans (Finset.card_filter_le _ _)

omit [DecidableEq K] [DecidableEq V] in
theorem subEntry_inj {e e' : SingleEntry K V} {pos : Nat} (hl : e.key.length = e'.key.length)
    (hp : pos < e.key.length) (ha : keyAt e.key pos = keyAt e'.key pos)
    (hs : subEntry pos e = subEntry pos e') : e = e' := by
  obtain ⟨key, value⟩ := e
  obtain ⟨key', value'⟩ := e'
  simp only [subEntry, SingleEntry.mk.injEq] at hs
  have hkey : key = key' := key_ext hl hp ha hs.1
  rw [hkey, hs.2]

namespace IsEntrySet

variable {t : HypertrieTrait K V} {depth : Nat} {S T : Finset (SingleEntry K V)}

omit [DecidableEq K] [DecidableEq V] [Inhabited K] in
theorem empty (t : HypertrieTrait K V) (depth : Nat) : IsEntrySet t depth ∅ :=
  ⟨by simp, by simp, by simp⟩

omit [DecidableEq K] [DecidableEq V] [Inhabited K] in
theorem subset (h : IsEntrySet t depth T) (hs : S ⊆ T) : IsEntrySet t depth S :=
  ⟨fun e he => h.length e (hs he), fun e he => h.value e (hs he),
    fun e he e' he' => h.unique e (hs he) e' (hs he')⟩

theorem split {pos : Nat} (h : IsEntrySet t depth S) (hp : pos < depth) (k : K) :
    IsEntrySet t (depth - 1) (split S pos k) := by
  refine ⟨?_, ?_, ?_⟩
  · intro e he
    obtain ⟨e', he', -, rfl⟩ := mem_split.mp he
    have hl := h.length e' he'
    have hs := length_subkey (show pos < e'.key.length by omega)
    simpa [subEntry, hl] using hs
  · intro e he
    obtain ⟨e', he', -, rfl⟩ := mem_split.mp he
    exact h.value e' he'
  · intro e he f hf hkey
    obtain ⟨e', he', hk, rfl⟩ := mem_split.mp he
    obtain ⟨f', hf', hk', rfl⟩ := mem_split.mp hf
    have hl := h.length e' he'
    have hl' := h.length f' hf'
    have hkeys : e'.key = f'.key := key_ext (by omega) (by omega) (hk.trans hk'.symm) hkey
    rw [h.unique e' he' f' hf' hkeys]

omit [DecidableEq K] [DecidableEq V] in
/-- An entry of a split comes from one entry only. -/
theorem subEntry_inj (h : IsEntrySet t depth S) {pos : Nat} (hp : pos < depth)
    {e e' : SingleEntry K V} (he : e ∈ S) (he' : e' ∈ S) (ha : keyAt e.key pos = keyAt e'.key pos)
    (hs : subEntry pos e = subEntry pos e') : e = e' := by
  have hl := h.length e he
  have hl' := h.length e' he'
  exact Hypertrie.subEntry_inj (by omega) (by omega) ha hs

theorem split_sdiff (h : IsEntrySet t depth S) (hT : T ⊆ S) {pos : Nat} (hp : pos < depth) (k : K) :
    Hypertrie.split (S \ T) pos k = Hypertrie.split S pos k \ Hypertrie.split T pos k := by
  ext e
  simp only [Finset.mem_sdiff, mem_split]
  constructor
  · rintro ⟨e', ⟨he', hnot⟩, hk, rfl⟩
    refine ⟨⟨e', he', hk, rfl⟩, ?_⟩
    rintro ⟨f, hf, hkf, hs⟩
    have := h.subEntry_inj hp (hT hf) he' (hkf.trans hk.symm) hs
    exact hnot (this ▸ hf)
  · rintro ⟨⟨e', he', hk, rfl⟩, hnot⟩
    exact ⟨e', ⟨he', fun hm => hnot ⟨e', hm, hk, rfl⟩⟩, hk, rfl⟩

theorem disjoint_split (h : IsEntrySet t depth (S ∪ T)) (hd : Disjoint S T) {pos : Nat}
    (hp : pos < depth) (k : K) : Disjoint (Hypertrie.split S pos k) (Hypertrie.split T pos k) := by
  rw [Finset.disjoint_left]
  intro e he hf
  obtain ⟨e', he', hk, rfl⟩ := mem_split.mp he
  obtain ⟨f', hf', hk', hs⟩ := mem_split.mp hf
  have := h.subEntry_inj hp (Finset.mem_union_right _ hf') (Finset.mem_union_left _ he')
    (hk'.trans hk.symm) hs
  exact Finset.disjoint_left.mp hd he' (this ▸ hf')

end IsEntrySet

/-- The entries of a list with key part `k` at `pos`, without that position. -/
def subEntries (entries : List (SingleEntry K V)) (pos : Nat) (k : K) : List (SingleEntry K V) :=
  (entries.filter (fun e => keyAt e.key pos = k)).map (subEntry pos)

theorem toFinset_subEntries (entries : List (SingleEntry K V)) (pos : Nat) (k : K) :
    (subEntries entries pos k).toFinset = split entries.toFinset pos k := by
  ext e
  simp [subEntries, mem_split, and_assoc]

theorem IsEntrySet.nodup_subEntries {t : HypertrieTrait K V} {depth pos : Nat}
    {entries : List (SingleEntry K V)} (h : IsEntrySet t depth entries.toFinset)
    (hn : entries.Nodup) (hp : pos < depth) (k : K) : (subEntries entries pos k).Nodup := by
  apply List.Nodup.map_on _ (hn.filter _)
  intro e he e' he' hs
  simp only [List.mem_filter, decide_eq_true_eq] at he he'
  exact h.subEntry_inj hp (List.mem_toFinset.mpr he.1) (List.mem_toFinset.mpr he'.1)
    (he.2.trans he'.2.symm) hs

section EntrySubsetForPos

omit [DecidableEq V]

variable {M : Type → Type → Type} [UnorderedMap M]

/-- `entry_subset_for_pos`: the entries grouped by their key part at `pos`. -/
def entrySubsetForPos (entries : List (SingleEntry K V)) (pos : Nat) : M K (List (SingleEntry K V)) :=
  entries.foldl (fun ret e =>
    assign ret (keyAt e.key pos) ((find ret (keyAt e.key pos)).getD [] ++ [subEntry pos e])) empty

theorem find_entrySubsetForPos (entries : List (SingleEntry K V)) (pos : Nat) (k : K) :
    find (entrySubsetForPos (M := M) entries pos) k =
      if subEntries entries pos k = [] then none else some (subEntries entries pos k) := by
  unfold entrySubsetForPos
  induction entries using List.reverseRecOn with
  | nil => simp [subEntries]
  | append_singleton entries e ih =>
    rw [List.foldl_append, List.foldl_cons, List.foldl_nil, find_assign]
    by_cases hk : k = keyAt e.key pos
    · subst hk
      rw [ih]
      by_cases he : subEntries entries pos (keyAt e.key pos) = []
      · have : subEntries (entries ++ [e]) pos (keyAt e.key pos) = [subEntry pos e] := by
          simpa [subEntries] using he
        simp [he, this]
      · have : subEntries (entries ++ [e]) pos (keyAt e.key pos) =
            subEntries entries pos (keyAt e.key pos) ++ [subEntry pos e] := by
          simp [subEntries]
        simp [he, this]
    · have : subEntries (entries ++ [e]) pos k = subEntries entries pos k := by
        simp [subEntries, Ne.symm hk]
      rw [if_neg hk, ih, this]

theorem find_entrySubsetForPos_eq_some {entries : List (SingleEntry K V)} {pos : Nat} {k : K}
    {sub : List (SingleEntry K V)} :
    find (entrySubsetForPos (M := M) entries pos) k = some sub ↔
      sub = subEntries entries pos k ∧ sub ≠ [] := by
  rw [find_entrySubsetForPos]
  split
  next h => simp [h]
  next h => constructor
            · rintro ⟨rfl⟩; exact ⟨rfl, h⟩
            · rintro ⟨rfl, -⟩; rfl

theorem find_entrySubsetForPos_eq_none {entries : List (SingleEntry K V)} {pos : Nat} {k : K} :
    find (entrySubsetForPos (M := M) entries pos) k = none ↔ subEntries entries pos k = [] := by
  rw [find_entrySubsetForPos]
  split <;> simp_all

end EntrySubsetForPos

end Hypertrie
