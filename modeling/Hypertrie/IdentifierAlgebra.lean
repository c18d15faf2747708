import Hypertrie.Identifier

/-! Changing an identifier by entries or by other identifiers. The result is the
identifier that the changed set of entries has. -/

namespace Hypertrie

variable {K V : Type} [Inhabited K]

namespace HypertrieTrait

section Operations

variable (t : HypertrieTrait K V)

def addEntry (depth : Nat) (id : RawIdentifier) (e : SingleEntry K V) : RawIdentifier :=
  if id.isEmpty then t.encodeSingleEntry depth e
  else if t.isSen id then
    if t.inPlaceNode depth then
      t.tagAsFn (t.hashAndCombine (t.getEntry id) (t.hashAndCombine e seed))
    else t.tagAsFn (t.hashAndCombine e id)
  else t.tagAsFn (t.hashAndCombine e id)

def removeEntry (id : RawIdentifier) (e : SingleEntry K V) (becomesSen : Bool) : RawIdentifier :=
  let hash := t.hashAndCombine e id
  if becomesSen then t.tagAsSen hash else t.tagAsFn hash

/-- Only values of other types than `bool` can be changed. -/
def changeValue (id : RawIdentifier) (oldEntry : SingleEntry K V) (newValue : V) : RawIdentifier :=
  let hash := t.hashAndCombine oldEntry (t.hashAndCombine ⟨oldEntry.key, newValue⟩ id)
  if t.isSen id then t.tagAsSen hash else t.tagAsFn hash

def retagAsSen (id : RawIdentifier) : RawIdentifier := t.tagAsSen id

end Operations

/-- Entries of the type for this depth; one of a bool-valued hypertrie is true. -/
structure Typed (t : HypertrieTrait K V) (depth : Nat) (S : Finset (SingleEntry K V)) : Prop where
  length : ∀ e ∈ S, e.key.length = depth
  value : t.isBoolValued = true → ∀ e ∈ S, e.value = t.one

variable {t : HypertrieTrait K V} {d : Nat} {S T : Finset (SingleEntry K V)} {e : SingleEntry K V}

omit [Inhabited K] in
theorem Typed.isEntrySet (h : Typed t d S) (hd : t.inPlaceNode d = true) : IsEntrySet t d S := by
  obtain ⟨hb, -, -⟩ := inPlaceNode_iff.mp hd
  refine ⟨h.length, fun e he => ?_, fun e he e' he' hk => ?_⟩
  · rw [h.value hb e he]
    exact t.zero_ne_one.symm
  · cases e
    cases e'
    exact congrArg₂ SingleEntry.mk hk ((h.value hb _ he).trans (h.value hb _ he').symm)

theorem Typed.tagAsFn_combinePart (h : Typed t d S) :
    t.tagAsFn (t.combinePart d (t.ident d S)) = t.hashOf S :=
  tagAsFn_combinePart_ident h.isEntrySet

omit [Inhabited K] in
theorem hashOf_singleton (e : SingleEntry K V) : t.hashOf {e} = t.tagAsFn (t.entryHash e) := by
  rw [hashOf, xorSum_singleton]

/-- Outside of in-place nodes the tag is all that tells the identifier from the hash. -/
theorem ident_of_card_one (hd : t.inPlaceNode d = false) (h : S.card = 1) {hash : RawIdentifier}
    (hh : t.tagAsFn hash = t.hashOf S) : t.tagAsSen hash = t.ident d S := by
  obtain ⟨e, rfl⟩ := Finset.card_eq_one.mp h
  have hcode : t.entryCode d e = t.entryHash e := by
    rw [entryCode, hd]
    rfl
  rw [← tagAsSen_tagAsFn, hh, hashOf_singleton, tagAsSen_tagAsFn, ident_singleton,
    encodeSingleEntry_eq, hcode]

theorem combine_ident (hS : Typed t d S) (hT : Typed t d T) (hS0 : t.ident d S ≠ seed)
    (hT0 : t.ident d T ≠ seed) :
    t.combine d (t.ident d S) (t.ident d T) false = t.hashOf S ^^^ t.hashOf T := by
  rw [combine_of_ne_seed hS0 hT0, tagAsFn_xor, hS.tagAsFn_combinePart, hT.tagAsFn_combinePart]

variable [DecidableEq K] [DecidableEq V]

theorem combine_disjoint (hS : Typed t d S) (hT : Typed t d T) (hS0 : t.ident d S ≠ seed)
    (hT0 : t.ident d T ≠ seed) (hs : S.Nonempty) (ht : T.Nonempty) (hd : Disjoint S T) :
    t.combine d (t.ident d S) (t.ident d T) false = t.ident d (S ∪ T) := by
  have hcard : 2 ≤ (S ∪ T).card := by
    have := hs.card_pos
    have := ht.card_pos
    rw [Finset.card_union_of_disjoint hd]
    omega
  rw [combine_ident hS hT hS0 hT0, ident_of_two_le hcard, hashOf_union hd]

theorem combine_subset (hS : Typed t d S) (hT : Typed t d T) (hS0 : t.ident d S ≠ seed)
    (hT0 : t.ident d T ≠ seed) (h : T ⊆ S) :
    t.combine d (t.ident d S) (t.ident d T) false = t.hashOf (S \ T) := by
  rw [combine_ident hS hT hS0 hT0, hashOf_sdiff h, BitVec.xor_comm]

omit [DecidableEq K] [DecidableEq V] in
theorem addEntry_of_ne_seed {id : RawIdentifier} (hi : id ≠ seed) (e : SingleEntry K V) :
    t.addEntry d id e = t.tagAsFn (t.combinePart d id ^^^ t.entryHash e) := by
  have hempty : id.isEmpty = false := by simpa [RawIdentifier.isEmpty] using hi
  rw [addEntry, hempty, if_neg Bool.false_ne_true]
  by_cases hs : t.isSen id = true
  · rw [if_pos hs]
    by_cases hp : t.inPlaceNode d = true
    · rw [if_pos hp, combinePart, hp, hs, hashAndCombine, hashAndCombine, hashAndCombine, seed_xor,
        seed_xor, BitVec.xor_comm]
      rfl
    · rw [if_neg hp, combinePart, if_neg (by simp [hp])]
      rfl
  · rw [if_neg hs, combinePart, if_neg (by simp [hs])]
    rfl

theorem addEntry_ident (hS : Typed t d S) (hS0 : S.Nonempty → t.ident d S ≠ seed) (he : e ∉ S) :
    t.addEntry d (t.ident d S) e = t.ident d (insert e S) := by
  rcases S.eq_empty_or_nonempty with rfl | hs
  · rw [ident_empty, insert_empty_eq, ident_singleton]
    rfl
  · have hd : Disjoint S {e} := Finset.disjoint_singleton_right.mpr he
    have hcard : 2 ≤ (insert e S).card := by
      have := hs.card_pos
      rw [Finset.card_insert_of_notMem he]
      omega
    rw [addEntry_of_ne_seed (hS0 hs), tagAsFn_xor, hS.tagAsFn_combinePart, ← hashOf_singleton,
      ← hashOf_union hd, ident_of_two_le hcard, Finset.union_comm]
    rfl

theorem tagAsFn_removed (hc : 2 ≤ S.card) (he : e ∈ S) :
    t.tagAsFn (t.hashAndCombine e (t.ident d S)) = t.hashOf (S.erase e) := by
  rw [hashAndCombine, ident_of_two_le hc, tagAsFn_xor, ← hashOf_singleton, Finset.erase_eq,
    hashOf_sdiff (Finset.singleton_subset_iff.mpr he), BitVec.xor_comm, hashOf, hashOf,
    tagAsFn_tagAsFn]

theorem removeEntry_ident (hc : 2 ≤ S.card) (he : e ∈ S) {becomesSen : Bool}
    (hb : becomesSen = decide (S.card = 2)) (hp : t.inPlaceNode d = true → becomesSen = false) :
    t.removeEntry (t.ident d S) e becomesSen = t.ident d (S.erase e) := by
  have hhash := tagAsFn_removed (t := t) (d := d) hc he
  have hcard := Finset.card_erase_of_mem he
  cases becomesSen with
  | true =>
    have htwo : S.card = 2 := of_decide_eq_true hb.symm
    have hd : t.inPlaceNode d = false := by
      by_contra hd
      exact Bool.noConfusion (hp (by simpa using hd))
    exact ident_of_card_one hd (by omega) hhash
  | false =>
    have htwo : S.card ≠ 2 := of_decide_eq_false hb.symm
    rw [ident_of_two_le (show 2 ≤ (S.erase e).card by omega)]
    exact hhash

omit [Inhabited K] in
/-- One of the values is exchanged. -/
theorem hashOf_exchanged {e' : SingleEntry K V} (he : e ∈ S) (he' : e' ∉ S.erase e) :
    t.hashOf (insert e' (S.erase e)) = t.hashOf S ^^^ t.hashOf {e'} ^^^ t.hashOf {e} := by
  have hd : Disjoint (S.erase e) {e'} := Finset.disjoint_singleton_right.mpr he'
  have hers : t.hashOf (S.erase e) = t.hashOf S ^^^ t.hashOf {e} := by
    rw [Finset.erase_eq, hashOf_sdiff (Finset.singleton_subset_iff.mpr he), BitVec.xor_comm]
  rw [Finset.insert_eq, Finset.union_comm, hashOf_union hd, hers, BitVec.xor_assoc,
    BitVec.xor_comm (t.hashOf {e}), ← BitVec.xor_assoc]

theorem changeValue_ident (hbool : t.isBoolValued = false) (he : e ∈ S)
    (hkey : ∀ e' ∈ S, e'.key = e.key → e' = e) (newValue : V) :
    t.changeValue (t.ident d S) e newValue = t.ident d (insert ⟨e.key, newValue⟩ (S.erase e)) := by
  have hplace : t.inPlaceNode d = false := by simp [inPlaceNode, hbool]
  have hnew : (⟨e.key, newValue⟩ : SingleEntry K V) ∉ S.erase e := by
    intro hm
    obtain ⟨hne, hm⟩ := Finset.mem_erase.mp hm
    exact hne (hkey _ hm rfl)
  have hcard : (insert ⟨e.key, newValue⟩ (S.erase e)).card = S.card := by
    have := Finset.card_pos.mpr ⟨e, he⟩
    rw [Finset.card_insert_of_notMem hnew, Finset.card_erase_of_mem he]
    omega
  have hident : t.tagAsFn (t.ident d S) = t.hashOf S := by
    have hpart : t.combinePart d (t.ident d S) = t.ident d S := by
      rw [combinePart, hplace]
      rfl
    rw [← hpart]
    exact tagAsFn_combinePart_ident fun hd => by simp [hplace] at hd
  have hhash : t.tagAsFn (t.hashAndCombine e (t.hashAndCombine ⟨e.key, newValue⟩ (t.ident d S))) =
      t.hashOf (insert ⟨e.key, newValue⟩ (S.erase e)) := by
    rw [hashAndCombine, hashAndCombine, tagAsFn_xor, tagAsFn_xor, hident, ← hashOf_singleton,
      ← hashOf_singleton, hashOf_exchanged he hnew]
  rw [changeValue]
  by_cases hs : t.isSen (t.ident d S) = true
  · rw [if_pos hs]
    exact ident_of_card_one hplace (hcard.trans (isSen_ident_iff.mp hs)) hhash
  · have hone : S.card ≠ 1 := fun h => hs (isSen_ident_iff.mpr h)
    have hpos := Finset.card_pos.mpr ⟨e, he⟩
    rw [if_neg hs, ident_of_two_le (show 2 ≤ (insert ⟨e.key, newValue⟩ (S.erase e)).card by omega)]
    exact hhash

/-- The identifier of `S`, and those that are made from it, follow the sets. -/
structure FollowsSets (t : HypertrieTrait K V) (d : Nat) (S T : Finset (SingleEntry K V)) : Prop where
  order : ∀ l : List (SingleEntry K V), l.Nodup → l.toFinset = S → t.hashIterable d l = t.ident d S
  union : S.Nonempty → T.Nonempty → Disjoint S T →
    t.combine d (t.ident d S) (t.ident d T) false = t.ident d (S ∪ T)
  rest : 2 ≤ S.card → T.Nonempty → T ⊆ S → 2 ≤ (S \ T).card →
    t.combine d (t.ident d S) (t.ident d T) false = t.ident d (S \ T)
  noRest : 2 ≤ S.card → T.Nonempty → T ⊆ S → S \ T = ∅ →
    t.combine d (t.ident d S) (t.ident d T) false = seed
  oneRest : 2 ≤ S.card → T.Nonempty → T ⊆ S → t.inPlaceNode d = false → ∀ e, S \ T = {e} →
    t.retagAsSen (t.combine d (t.ident d S) (t.ident d T) false) = t.encodeSingleEntry d e
  added : ∀ e ∉ S, t.addEntry d (t.ident d S) e = t.ident d (insert e S)
  removed : 2 ≤ S.card → ∀ e ∈ S, ∀ becomesSen : Bool, becomesSen = decide (S.card = 2) →
    (t.inPlaceNode d = true → becomesSen = false) →
    t.removeEntry (t.ident d S) e becomesSen = t.ident d (S.erase e)
  changed : t.isBoolValued = false → ∀ e ∈ S, (∀ e' ∈ S, e'.key = e.key → e' = e) →
    ∀ newValue, newValue ≠ t.zero →
      t.changeValue (t.ident d S) e newValue = t.ident d (insert ⟨e.key, newValue⟩ (S.erase e))
  isSen_iff : t.isSen (t.ident d S) = true ↔ S.card = 1
  isFn_iff : t.isFn (t.ident d S) = true ↔ 2 ≤ S.card
  readBack : t.inPlaceNode d = true → ∀ e, S = {e} → t.getEntry (t.ident d S) = e

omit [DecidableEq K] [DecidableEq V] in
theorem isFn_ident_iff (hS0 : S.Nonempty → t.ident d S ≠ seed) :
    t.isFn (t.ident d S) = true ↔ 2 ≤ S.card := by
  rcases S.eq_empty_or_nonempty with rfl | hs
  · rw [ident_empty, isFn_seed]
    simp
  · have hpos := hs.card_pos
    rw [isFn_eq_not_isSen (hS0 hs), Bool.not_eq_true', ← Bool.not_eq_true, isSen_ident_iff]
    omega

/-- No two routes to the identifier of a set of entries differ. -/
theorem ident_followsSets (hS : Typed t d S) (hT : Typed t d T)
    (hS0 : S.Nonempty → t.ident d S ≠ seed) (hT0 : T.Nonempty → t.ident d T ≠ seed) :
    FollowsSets t d S T where
  order l hl hS := by
    rw [hashIterable_eq hl, hS]
  union hs ht hd := combine_disjoint hS hT (hS0 hs) (hT0 ht) hs ht hd
  rest hc ht h hrest := by
    rw [combine_subset hS hT (hS0 (Finset.card_pos.mp (by omega))) (hT0 ht) h, ident_of_two_le hrest]
  noRest hc ht h hrest := by
    rw [combine_subset hS hT (hS0 (Finset.card_pos.mp (by omega))) (hT0 ht) h, hrest, hashOf,
      xorSum_empty]
    exact tagAsFn_seed
  oneRest hc ht h hp e hrest := by
    rw [combine_subset hS hT (hS0 (Finset.card_pos.mp (by omega))) (hT0 ht) h, ← ident_singleton,
      ← hrest]
    exact ident_of_card_one hp (by simp [hrest]) (by rw [hashOf, tagAsFn_tagAsFn])
  added e he := addEntry_ident hS hS0 he
  removed hc e he becomesSen hb hp := removeEntry_ident hc he hb hp
  changed hbool e he hkey newValue _ := changeValue_ident hbool he hkey newValue
  isSen_iff := isSen_ident_iff
  isFn_iff := isFn_ident_iff hS0
  readBack hd e he := by
    subst he
    exact getEntry_ident_singleton hd (hS.isEntrySet hd)

/-- Two in-place entries and one of them. -/
theorem ident_followsSets_two : FollowsSets taggedBoolTrait 1
    {⟨[⟨3, by decide⟩], true⟩, ⟨[⟨4, by decide⟩], true⟩} {⟨[⟨3, by decide⟩], true⟩} :=
  ident_followsSets ⟨by decide, by decide⟩ ⟨by decide, by decide⟩ (fun _ => by decide +kernel)
    (fun _ => by decide +kernel)

end HypertrieTrait

end Hypertrie
