import Hypertrie.Library.XorSum
import Hypertrie.EntrySet

/-! Identifiers of nodes. An identifier is one word: the exclusive or of the
entry hashes, with a tag bit that tells single-entry nodes from full nodes, or
the encoded key part where an entry is stored in place. -/

namespace Hypertrie

abbrev RawIdentifier := BitVec 64

variable {K V : Type}

/-- The empty identifier is the seed of the hash; its tagging bit is 0. -/
def seed : RawIdentifier := 0

@[simp]
theorem seed_xor (id : RawIdentifier) : seed ^^^ id = id := by simp [seed]

@[simp]
theorem xor_seed (id : RawIdentifier) : id ^^^ seed = id := by simp [seed]

def RawIdentifier.isEmpty (id : RawIdentifier) : Bool := id == seed

namespace HypertrieTrait

variable (t : HypertrieTrait K V)

def isSen (id : RawIdentifier) : Bool := !id.isEmpty && id.getLsbD t.tagPos

def isFn (id : RawIdentifier) : Bool := !id.isEmpty && !id.getLsbD t.tagPos

def tagAsSen (hash : RawIdentifier) : RawIdentifier := hash ||| BitVec.twoPow 64 t.tagPos

def tagAsFn (hash : RawIdentifier) : RawIdentifier := hash &&& ~~~BitVec.twoPow 64 t.tagPos

/-- `hash_invertible_combine` is exclusive or. -/
def hashAndCombine (e : SingleEntry K V) (s : RawIdentifier) : RawIdentifier := s ^^^ t.entryHash e

def encodeSingleEntry [Inhabited K] (depth : Nat) (e : SingleEntry K V) : RawIdentifier :=
  if t.inPlaceNode depth then t.tagAsSen (t.toWord (keyAt e.key 0))
  else t.tagAsSen (t.hashAndCombine e seed)

/-- The entry of an identifier that stores it in place. -/
def getEntry (id : RawIdentifier) : SingleEntry K V := ⟨[t.ofWord (t.tagAsFn id)], t.one⟩

/-- The identifier of a node that holds `entries`, which must not repeat. -/
def hashIterable [Inhabited K] (depth : Nat) : List (SingleEntry K V) → RawIdentifier
  | [] => seed
  | [e] => t.encodeSingleEntry depth e
  | entries => t.tagAsFn (entries.foldl (fun hash e => t.hashAndCombine e hash) seed)

/-- `RawIdentifier::combine`. Disjoint contents are united, common entries removed. -/
def combine (depth : Nat) (id other : RawIdentifier) (becomesSen : Bool) : RawIdentifier :=
  if id.isEmpty then other
  else if other.isEmpty then id
  else
    let left := if t.inPlaceNode depth && t.isSen id then t.hashAndCombine (t.getEntry id) seed else id
    let right :=
      if t.inPlaceNode depth && t.isSen other then t.hashAndCombine (t.getEntry other) seed else other
    if becomesSen then t.tagAsSen (seed ^^^ left ^^^ right) else t.tagAsFn (seed ^^^ left ^^^ right)

section Tags

variable {t}

theorem seed_ne_tagAsSen (hash : RawIdentifier) : t.tagAsSen hash ≠ seed := by
  intro h
  have hb := congrArg (fun x : RawIdentifier => x.getLsbD t.tagPos) h
  simp [tagAsSen, seed] at hb

@[simp]
theorem isSen_tagAsSen (hash : RawIdentifier) : t.isSen (t.tagAsSen hash) = true := by
  have h : (t.tagAsSen hash).isEmpty = false := by
    simpa [RawIdentifier.isEmpty] using seed_ne_tagAsSen (t := t) hash
  have hb : (t.tagAsSen hash).getLsbD t.tagPos = true := by simp [tagAsSen]
  simp [isSen, h, hb]

@[simp]
theorem isFn_tagAsSen (hash : RawIdentifier) : t.isFn (t.tagAsSen hash) = false := by
  simp [isFn, tagAsSen]

@[simp]
theorem isEmpty_tagAsSen (hash : RawIdentifier) : (t.tagAsSen hash).isEmpty = false := by
  simpa [RawIdentifier.isEmpty] using seed_ne_tagAsSen (t := t) hash

@[simp]
theorem isSen_tagAsFn (hash : RawIdentifier) : t.isSen (t.tagAsFn hash) = false := by
  simp [isSen, tagAsFn]

theorem isSen_seed : t.isSen seed = false := by simp [isSen, RawIdentifier.isEmpty]

theorem isFn_seed : t.isFn seed = false := by simp [isFn, RawIdentifier.isEmpty]

/-- An identifier other than the empty one is of exactly one kind. -/
theorem isFn_eq_not_isSen {id : RawIdentifier} (h : id ≠ seed) : t.isFn id = !t.isSen id := by
  have he : id.isEmpty = false := by simpa [RawIdentifier.isEmpty] using h
  simp [isFn, isSen, he]

theorem tagAsFn_tagAsSen (hash : RawIdentifier) : t.tagAsFn (t.tagAsSen hash) = t.tagAsFn hash := by
  unfold tagAsFn tagAsSen
  ext i hi
  simp
  grind

theorem tagAsSen_tagAsFn (hash : RawIdentifier) : t.tagAsSen (t.tagAsFn hash) = t.tagAsSen hash := by
  unfold tagAsFn tagAsSen
  ext i hi
  simp
  grind

@[simp]
theorem tagAsFn_tagAsFn (hash : RawIdentifier) : t.tagAsFn (t.tagAsFn hash) = t.tagAsFn hash := by
  unfold tagAsFn
  ext i hi
  simp

theorem tagAsFn_xor (a b : RawIdentifier) : t.tagAsFn (a ^^^ b) = t.tagAsFn a ^^^ t.tagAsFn b := by
  unfold tagAsFn
  ext i hi
  simp
  grind

@[simp]
theorem tagAsFn_seed : t.tagAsFn seed = seed := by
  simp [tagAsFn, seed]

theorem tagAsSen_inj {a b : RawIdentifier} (h : t.tagAsSen a = t.tagAsSen b) :
    t.tagAsFn a = t.tagAsFn b := by
  rw [← tagAsFn_tagAsSen a, h, tagAsFn_tagAsSen]

end Tags

section EntrySets

variable [Inhabited K]

/-- The hash of a set of entries without its tag. -/
def hashOf (S : Finset (SingleEntry K V)) : RawIdentifier := t.tagAsFn (xorSum t.entryHash S)

/-- What the identifier of a single entry holds beside its tag. -/
def entryCode (depth : Nat) (e : SingleEntry K V) : RawIdentifier :=
  if t.inPlaceNode depth then t.toWord (keyAt e.key 0) else t.entryHash e

/-- The identifier of the node that holds the entries `S`. -/
def ident (depth : Nat) (S : Finset (SingleEntry K V)) : RawIdentifier :=
  if S.card = 0 then seed
  else if S.card = 1 then t.tagAsSen (xorSum (t.entryCode depth) S)
  else t.hashOf S

variable {t} {d : Nat} {S T : Finset (SingleEntry K V)}

theorem encodeSingleEntry_eq (e : SingleEntry K V) :
    t.encodeSingleEntry d e = t.tagAsSen (t.entryCode d e) := by
  unfold encodeSingleEntry entryCode hashAndCombine seed
  split <;> simp

@[simp]
theorem ident_empty : t.ident d ∅ = seed := by simp [ident]

theorem ident_singleton (e : SingleEntry K V) :
    t.ident d {e} = t.encodeSingleEntry d e := by
  simp [ident, encodeSingleEntry_eq]

theorem ident_of_two_le (h : 2 ≤ S.card) : t.ident d S = t.hashOf S := by
  have h0 : S.card ≠ 0 := by omega
  have h1 : S.card ≠ 1 := by omega
  simp [ident, h0, h1]

theorem isSen_ident_singleton (e : SingleEntry K V) : t.isSen (t.ident d {e}) = true := by
  rw [ident_singleton, encodeSingleEntry_eq, isSen_tagAsSen]

/-- Single-entry identifiers are exactly those of sets with one entry. -/
theorem isSen_ident_iff : t.isSen (t.ident d S) = true ↔ S.card = 1 := by
  unfold ident
  split
  next h => simp [isSen_seed, h]
  next h =>
    split
    next h1 => simp [h1]
    next h1 => simp [hashOf, h1]

variable [DecidableEq K] [DecidableEq V]

omit [Inhabited K] in
theorem hashOf_union (h : Disjoint S T) : t.hashOf (S ∪ T) = t.hashOf S ^^^ t.hashOf T := by
  rw [hashOf, xorSum_union h, tagAsFn_xor, hashOf, hashOf]

omit [Inhabited K] in
theorem hashOf_sdiff (h : T ⊆ S) : t.hashOf (S \ T) = t.hashOf T ^^^ t.hashOf S := by
  rw [hashOf, xorSum_sdiff h, tagAsFn_xor, hashOf, hashOf]

/-- The order of the entries does not matter. -/
theorem hashIterable_eq {l : List (SingleEntry K V)} (h : l.Nodup) :
    t.hashIterable d l = t.ident d l.toFinset := by
  match l with
  | [] => simp [hashIterable]
  | [e] => simp [hashIterable, ident_singleton]
  | e :: f :: l =>
    have hc : 2 ≤ (e :: f :: l).toFinset.card := by
      rw [List.toFinset_card_of_nodup h]
      simp
    have hf := foldl_xor_eq (f := t.entryHash) h seed
    have he : t.hashIterable d (e :: f :: l) =
        t.tagAsFn ((e :: f :: l).foldl (fun acc a => acc ^^^ t.entryHash a) seed) := rfl
    rw [ident_of_two_le hc, hashOf, he, hf, seed_xor]

omit [DecidableEq K] [DecidableEq V] [Inhabited K] in
theorem toWord_eq_of_tagAsSen (hd : t.taggableKeyPart = true) (k : K) :
    t.tagAsFn (t.tagAsSen (t.toWord k)) = t.toWord k := by
  have hb := tag_unset_at hd k
  rw [tagAsFn_tagAsSen]
  unfold tagAsFn
  ext i hi
  by_cases h : i = t.tagPos.val
  · subst h
    simpa using hb
  · simp [h]

omit [DecidableEq K] [DecidableEq V] in
/-- Reading an in-place identifier gives back the entry it encodes. -/
theorem getEntry_ident_singleton {e : SingleEntry K V} (hd : t.inPlaceNode d = true)
    (h : IsEntrySet t d {e}) : t.getEntry (t.ident d {e}) = e := by
  obtain ⟨hb, htag, rfl⟩ := inPlaceNode_iff.mp hd
  obtain ⟨key, value⟩ := e
  have hl : key.length = 1 := h.length _ (Finset.mem_singleton_self _)
  have hv : value ≠ t.zero := h.value _ (Finset.mem_singleton_self _)
  obtain ⟨k, rfl⟩ := List.length_eq_one_iff.mp hl
  rw [ident_singleton, encodeSingleEntry_eq, entryCode, if_pos hd, getEntry,
    toWord_eq_of_tagAsSen htag, t.ofWord_toWord, eq_one_of_ne_zero hb hv]
  rfl

end EntrySets

end HypertrieTrait

section NoCollision

variable [DecidableEq K] [DecidableEq V] [Inhabited K]

/-- The sets of entries an update deals with, at each depth: splitting a set gives another one,
and no two of them have the same hash. -/
structure InPlay (t : HypertrieTrait K V) (F : Nat → Finset (SingleEntry K V) → Prop) : Prop where
  entrySet : ∀ {d S}, F d S → IsEntrySet t d S
  split : ∀ {d S pos k}, F d S → 2 ≤ S.card → pos < d → 1 < d → (split S pos k).Nonempty →
    F (d - 1) (split S pos k)
  hash_inj : ∀ {d S T}, F d S → F d T → t.hashOf S = t.hashOf T → S = T
  hash_ne_seed : ∀ {d S}, F d S → S.Nonempty → t.hashOf S ≠ seed

namespace InPlay

variable {t : HypertrieTrait K V} {F : Nat → Finset (SingleEntry K V) → Prop} {d : Nat}
  {S T : Finset (SingleEntry K V)}

theorem ident_ne_seed (h : InPlay t F) (hS : F d S) (hn : S.Nonempty) : t.ident d S ≠ seed := by
  have hc := hn.card_pos
  unfold HypertrieTrait.ident
  rw [if_neg (by omega)]
  split
  · exact HypertrieTrait.seed_ne_tagAsSen _
  · exact h.hash_ne_seed hS hn

theorem isFn_ident_iff (h : InPlay t F) (hS : F d S) : t.isFn (t.ident d S) = true ↔ 2 ≤ S.card := by
  rcases S.eq_empty_or_nonempty with rfl | hn
  · simp [HypertrieTrait.isFn_seed]
  · have hc := hn.card_pos
    have hi := HypertrieTrait.isSen_ident_iff (t := t) (d := d) (S := S)
    rw [HypertrieTrait.isFn_eq_not_isSen (h.ident_ne_seed hS hn)]
    cases hs : t.isSen (t.ident d S) with
    | true => simp [hi.mp hs]
    | false =>
      have : S.card ≠ 1 := fun hc => by simp [hi.mpr hc] at hs
      simp
      omega

theorem ident_inj (h : InPlay t F) (hS : F d S) (hT : F d T) (he : t.ident d S = t.ident d T) :
    S = T := by
  have hfS := h.isFn_ident_iff hS
  have hfT := h.isFn_ident_iff hT
  have hsS := HypertrieTrait.isSen_ident_iff (t := t) (d := d) (S := S)
  have hsT := HypertrieTrait.isSen_ident_iff (t := t) (d := d) (S := T)
  rw [he] at hfS hsS
  by_cases hc : 2 ≤ S.card
  · have hc' : 2 ≤ T.card := hfT.mp (hfS.mpr hc)
    rw [HypertrieTrait.ident_of_two_le hc, HypertrieTrait.ident_of_two_le hc'] at he
    exact h.hash_inj hS hT he
  by_cases hc1 : S.card = 1
  · have hc1' : T.card = 1 := hsT.mp (hsS.mpr hc1)
    obtain ⟨e, rfl⟩ := Finset.card_eq_one.mp hc1
    obtain ⟨f, rfl⟩ := Finset.card_eq_one.mp hc1'
    by_cases hd : t.inPlaceNode d = true
    · have hge := HypertrieTrait.getEntry_ident_singleton hd (h.entrySet hS)
      have hgf := HypertrieTrait.getEntry_ident_singleton hd (h.entrySet hT)
      rw [← hge, he, hgf]
    · have hh := he
      simp only [HypertrieTrait.ident_singleton, HypertrieTrait.encodeSingleEntry_eq,
        HypertrieTrait.entryCode, if_neg hd] at hh
      apply h.hash_inj hS hT
      simpa [HypertrieTrait.hashOf] using HypertrieTrait.tagAsSen_inj hh
  · have h0 : S = ∅ := Finset.card_eq_zero.mp (by omega)
    rcases T.eq_empty_or_nonempty with rfl | hn
    · exact h0
    · rw [h0, HypertrieTrait.ident_empty] at he
      exact absurd he.symm (h.ident_ne_seed hT hn)

end InPlay

end NoCollision

section Combine

variable [Inhabited K] {t : HypertrieTrait K V} {d : Nat}
  {S T : Finset (SingleEntry K V)}

namespace HypertrieTrait

/-- The word that `combine` takes from an identifier. -/
def combinePart (t : HypertrieTrait K V) (depth : Nat) (id : RawIdentifier) : RawIdentifier :=
  if t.inPlaceNode depth && t.isSen id then t.hashAndCombine (t.getEntry id) seed else id

omit [Inhabited K] in
theorem combine_of_ne_seed {id other : RawIdentifier} (hi : id ≠ seed) (ho : other ≠ seed) :
    t.combine d id other false = t.tagAsFn (t.combinePart d id ^^^ t.combinePart d other) := by
  have hi' : id.isEmpty = false := by simpa [RawIdentifier.isEmpty] using hi
  have ho' : other.isEmpty = false := by simpa [RawIdentifier.isEmpty] using ho
  simp [combine, combinePart, hi', ho', seed]

theorem tagAsFn_combinePart_ident (h : t.inPlaceNode d = true → IsEntrySet t d S) :
    t.tagAsFn (t.combinePart d (t.ident d S)) = t.hashOf S := by
  unfold combinePart
  by_cases hc : S.card = 1
  · obtain ⟨e, rfl⟩ := Finset.card_eq_one.mp hc
    have hs := isSen_ident_singleton (t := t) (d := d) e
    by_cases hd : t.inPlaceNode d = true
    · simp [hd, hs, getEntry_ident_singleton hd (h hd), hashAndCombine, hashOf, seed]
    · simp [hd, ident_singleton, encodeSingleEntry_eq, entryCode, hashOf, tagAsFn_tagAsSen]
  · have hs : t.isSen (t.ident d S) = false := by
      cases hs : t.isSen (t.ident d S) with
      | true => exact absurd (isSen_ident_iff.mp hs) hc
      | false => rfl
    rw [hs, Bool.and_false, if_neg Bool.false_ne_true]
    unfold ident
    split
    next h0 =>
      rw [Finset.card_eq_zero.mp h0]
      simp [hashOf, seed, tagAsFn]
    next => simp [hashOf]

end HypertrieTrait

variable [DecidableEq K] [DecidableEq V]

/-- Inserting entries: the identifiers of disjoint sets combine to that of their union. -/
theorem InPlay.combine_union {F : Nat → Finset (SingleEntry K V) → Prop} (h : InPlay t F)
    (hS : F d S) (hST : F d (S ∪ T)) (hs : S.Nonempty) (ht : T.Nonempty) (hd : Disjoint S T) :
    t.combine d (t.ident d T) (t.ident d S) false = t.ident d (S ∪ T) := by
  have hsub := h.entrySet hST
  have heT : IsEntrySet t d T := hsub.subset Finset.subset_union_right
  have hcard := Finset.card_union_of_disjoint hd
  have hcs := hs.card_pos
  have hct := ht.card_pos
  have hu := HypertrieTrait.hashOf_union (t := t) hd
  have hT : t.ident d T ≠ seed := by
    intro h0
    have hct2 : 2 ≤ T.card := by
      by_contra hlt
      obtain ⟨e, rfl⟩ := Finset.card_eq_one.mp (show T.card = 1 by omega)
      rw [HypertrieTrait.ident_singleton, HypertrieTrait.encodeSingleEntry_eq] at h0
      exact HypertrieTrait.seed_ne_tagAsSen _ h0
    rw [HypertrieTrait.ident_of_two_le hct2] at h0
    rw [h0, xor_seed] at hu
    have := congrArg Finset.card (h.hash_inj hST hS hu)
    omega
  rw [HypertrieTrait.combine_of_ne_seed hT (h.ident_ne_seed hS hs), HypertrieTrait.tagAsFn_xor,
    HypertrieTrait.tagAsFn_combinePart_ident (fun _ => heT),
    HypertrieTrait.tagAsFn_combinePart_ident (fun _ => h.entrySet hS),
    HypertrieTrait.ident_of_two_le (by omega), hu, BitVec.xor_comm]

/-- Removing entries: the result is the hash of what remains, not yet tagged as a single entry. -/
theorem InPlay.combine_sdiff {F : Nat → Finset (SingleEntry K V) → Prop} (h : InPlay t F)
    (hS : F d S) (hc : 2 ≤ S.card) (hT : T ⊆ S) :
    t.combine d (t.ident d T) (t.ident d S) false = t.hashOf (S \ T) := by
  have heT : IsEntrySet t d T := (h.entrySet hS).subset hT
  have hs : S.Nonempty := Finset.card_pos.mp (by omega)
  have hu := HypertrieTrait.hashOf_sdiff (t := t) hT
  by_cases h0 : t.ident d T = seed
  · have hpart := HypertrieTrait.tagAsFn_combinePart_ident fun _ => heT
    have hzero : t.hashOf T = seed := by
      rw [← hpart, h0]
      simp [HypertrieTrait.combinePart, HypertrieTrait.isSen_seed]
    rw [hu, hzero, seed_xor, h0]
    simp [HypertrieTrait.combine, RawIdentifier.isEmpty, HypertrieTrait.ident_of_two_le hc]
  · rw [HypertrieTrait.combine_of_ne_seed h0 (h.ident_ne_seed hS hs), HypertrieTrait.tagAsFn_xor,
      HypertrieTrait.tagAsFn_combinePart_ident (fun _ => heT),
      HypertrieTrait.tagAsFn_combinePart_ident (fun _ => h.entrySet hS), hu]

end Combine

end Hypertrie
