import Hypertrie.NodeContext
import Hypertrie.SliceKey

/-! Slices of a node. The fixed position with the fewest edges is descended
first; from a single entry the rest of the slice is cut out at once. -/

namespace Hypertrie

open UnorderedMap

variable {M : Type → Type → Type} [UnorderedMap M] {K V : Type}

/-- The fixed positions in ascending order, each with its key part. -/
abbrev RawSliceKey (K : Type) := List (Nat × K)

namespace RawSliceKey

variable [DecidableEq K]

def fixedValues : Nat → SliceKey K → RawSliceKey K
  | _, [] => []
  | keyPos, some part :: sliceKey => (keyPos, part) :: fixedValues (keyPos + 1) sliceKey
  | keyPos, none :: sliceKey => fixedValues (keyPos + 1) sliceKey

def ofSliceKey (sliceKey : SliceKey K) : RawSliceKey K := fixedValues 0 sliceKey

/-- The key without the fixed positions from `keyPos` on, if it agrees with them. -/
def sliceFrom : RawSliceKey K → Nat → List K → Option (List K)
  | _, _, [] => some []
  | [], _, key => some key
  | (pos, part) :: raw, keyPos, keyPart :: key =>
    if pos = keyPos then
      if part ≠ keyPart then none else sliceFrom raw (keyPos + 1) key
    else (sliceFrom ((pos, part) :: raw) (keyPos + 1) key).map (keyPart :: ·)

def slice (raw : RawSliceKey K) (key : List K) : Option (List K) := sliceFrom raw 0 key

/-- Without the `i`-th fixed position; the positions behind it move forward. -/
def subkeyI (raw : RawSliceKey K) (i : Nat) : RawSliceKey K :=
  raw.take i ++ (raw.drop (i + 1)).map (fun fixed => (fixed.1 - 1, fixed.2))

omit [DecidableEq K] in
theorem length_fixedValues (keyPos : Nat) (sliceKey : SliceKey K) :
    (fixedValues keyPos sliceKey).length = sliceKey.getFixedDepth := by
  induction sliceKey generalizing keyPos with
  | nil => rfl
  | cons item sliceKey ih =>
    cases item with
    | some part => rw [fixedValues, List.length_cons, ih, SliceKey.getFixedDepth_some]
    | none => rw [fixedValues, ih, SliceKey.getFixedDepth_none]

omit [DecidableEq K] in
theorem le_of_mem_fixedValues {keyPos : Nat} {sliceKey : SliceKey K} {fixed : Nat × K}
    (h : fixed ∈ fixedValues keyPos sliceKey) : keyPos ≤ fixed.1 := by
  induction sliceKey generalizing keyPos with
  | nil => simp [fixedValues] at h
  | cons item sliceKey ih =>
    cases item with
    | some part =>
      rcases List.mem_cons.mp h with rfl | h
      · exact le_rfl
      · exact (Nat.le_succ _).trans (ih h)
    | none => exact (Nat.le_succ _).trans (ih h)

omit [DecidableEq K] in
theorem map_shift_fixedValues (keyPos : Nat) (sliceKey : SliceKey K) :
    (fixedValues (keyPos + 1) sliceKey).map (fun fixed => (fixed.1 - 1, fixed.2)) =
      fixedValues keyPos sliceKey := by
  induction sliceKey generalizing keyPos with
  | nil => rfl
  | cons item sliceKey ih =>
    cases item with
    | some part => simp [fixedValues, ih]
    | none => simp [fixedValues, ih]

omit [DecidableEq K] in
/-- The `i`-th fixed value belongs to a position of the slice key; without it remains the slice
key without that position. -/
theorem exists_fixed {keyPos : Nat} {sliceKey : SliceKey K} {i : Nat}
    (hi : i < (fixedValues keyPos sliceKey).length) : ∃ pos part,
      sliceKey[pos]? = some (some part) ∧
      (fixedValues keyPos sliceKey)[i]? = some (keyPos + pos, part) ∧
      subkeyI (fixedValues keyPos sliceKey) i = fixedValues keyPos (sliceKey.eraseIdx pos) := by
  induction sliceKey generalizing keyPos i with
  | nil => simp [fixedValues] at hi
  | cons item sliceKey ih =>
    cases item with
    | none =>
      obtain ⟨pos, part, hp, hv, hs⟩ := ih (show i < (fixedValues (keyPos + 1) sliceKey).length from hi)
      refine ⟨pos + 1, part, by simpa using hp, ?_, hs⟩
      rw [fixedValues, hv]
      congr 2
      omega
    | some part =>
      cases i with
      | zero =>
        refine ⟨0, part, rfl, rfl, ?_⟩
        simp [fixedValues, subkeyI, map_shift_fixedValues]
      | succ i =>
        obtain ⟨pos, part', hp, hv, hs⟩ := ih (show i < (fixedValues (keyPos + 1) sliceKey).length by
          simpa [fixedValues] using hi)
        refine ⟨pos + 1, part', by simpa using hp, ?_, ?_⟩
        · rw [fixedValues, List.getElem?_cons_succ, hv]
          congr 2
          omega
        · rw [fixedValues, List.eraseIdx_cons_succ, fixedValues, ← hs]
          simp [subkeyI]

theorem sliceFrom_fixedValues {keyPos : Nat} {sliceKey : SliceKey K} {key : List K}
    (h : key.length = sliceKey.length) : sliceFrom (fixedValues keyPos sliceKey) keyPos key =
      if sliceKey.agrees key then some (sliceKey.deleteFixed key) else none := by
  induction sliceKey generalizing keyPos key with
  | nil =>
    rw [List.length_eq_zero_iff.mp h]
    rfl
  | cons item sliceKey ih =>
    cases key with
    | nil => cases h
    | cons keyPart key =>
      have ih : sliceFrom (fixedValues (keyPos + 1) sliceKey) (keyPos + 1) key = _ :=
        ih (by simpa using h)
      cases item with
      | some part =>
        by_cases hk : part = keyPart
        · simp [fixedValues, sliceFrom, SliceKey.agrees, SliceKey.deleteFixed, hk, ih]
        · simp [fixedValues, sliceFrom, SliceKey.agrees, hk]
      | none =>
        rw [fixedValues, SliceKey.agrees, SliceKey.deleteFixed]
        cases hv : fixedValues (keyPos + 1) sliceKey with
        | nil =>
          -- nothing is fixed any more
          have hz : SliceKey.getFixedDepth sliceKey = 0 := by
            rw [← length_fixedValues (keyPos + 1), hv]
            rfl
          rw [SliceKey.agrees_of_none hz, SliceKey.deleteFixed_of_none hz]
          rfl
        | cons fixed raw =>
          have hlt := le_of_mem_fixedValues (hv ▸ List.mem_cons_self : fixed ∈ _)
          obtain ⟨pos, part⟩ := fixed
          rw [hv] at ih
          rw [sliceFrom, if_neg (by simp only at hlt; omega), ih]
          split <;> rfl

theorem slice_ofSliceKey {sliceKey : SliceKey K} {key : List K} (h : key.length = sliceKey.length) :
    slice (ofSliceKey sliceKey) key =
      if sliceKey.agrees key then some (sliceKey.deleteFixed key) else none :=
  sliceFrom_fixedValues h

variable [Inhabited K]

theorem map_snd_fixedValues {keyPos : Nat} {sliceKey : SliceKey K}
    (h : sliceKey.getFixedDepth = sliceKey.length) :
    (fixedValues keyPos sliceKey).map Prod.snd = sliceKey.fixedKey := by
  induction sliceKey generalizing keyPos with
  | nil => rfl
  | cons item sliceKey ih =>
    cases item with
    | some part =>
      rw [SliceKey.getFixedDepth_some, List.length_cons] at h
      rw [fixedValues, List.map_cons, ih (by omega)]
      rfl
    | none =>
      have hle := SliceKey.getFixedDepth_le sliceKey
      rw [SliceKey.getFixedDepth_none, List.length_cons] at h
      omega

end RawSliceKey

namespace FullNode

/-- `min_fixed_keypart_i`: the first of the fixed positions with the fewest edges. -/
def minFixedKeypartI (depth : Nat) (n : FullNode M K V) (raw : RawSliceKey K) : Nat :=
  ((List.range depth).foldl (fun (state : Nat × Option Nat × Nat) pos =>
    match raw[state.1]? with
    | none => state
    | some fixed =>
      if pos = fixed.1 then
        if state.2.1.all (fun minCard => n.card depth pos < minCard) then
          (state.1 + 1, some (n.card depth pos), state.1)
        else (state.1 + 1, state.2)
      else state) (0, none, 0)).2.2

theorem minFixedKeypartI_lt {depth : Nat} (n : FullNode M K V) {raw : RawSliceKey K}
    (h : 0 < raw.length) : n.minFixedKeypartI depth raw < raw.length := by
  unfold minFixedKeypartI
  refine foldl_invariant (I := fun _ (state : Nat × Option Nat × Nat) => state.2.2 < raw.length) h ?_
  intro pos rest state hs
  split
  next => exact hs
  next fixed hf =>
    have hlt := (List.getElem?_eq_some_iff.mp hf).1
    split
    · split
      · exact hlt
      · exact hs
    · exact hs

end FullNode

/-- A slice is a node of the storage, a single entry that belongs to the result, or a value. -/
inductive SliceResult (K V : Type) where
  | node (nodec : RawIdentifier)
  | singleEntry (identifier : RawIdentifier) (entry : SingleEntry K V)
  | value (v : V)

namespace RawHypertrieContext

variable [DecidableEq K] [Inhabited K]
variable (t : HypertrieTrait K V) (ns : NodeStorage M K V)

/-- The slice of a single-entry node. `entry` is what its pointer leads to. -/
def sliceSingleEntry (depth : Nat) (nodec : RawIdentifier) (entry : Option (SingleEntry K V))
    (raw : RawSliceKey K) : Option (SliceResult K V) :=
  if raw.length = 0 then entry.map (.singleEntry nodec)
  else if depth = raw.length then
    (getSingleEntry t depth nodec entry (raw.map Prod.snd)).map .value
  else if nodec.isEmpty then some (.node seed)
  else do
    let entry ← entry
    match raw.slice entry.key with
    | some key =>
      let resultDepth := depth - raw.length
      let identifier := t.encodeSingleEntry resultDepth ⟨key, entry.value⟩
      some (if t.inPlaceNode resultDepth then .node identifier
        else .singleEntry identifier ⟨key, entry.value⟩)
    | none => some (.node seed)

def sliceRek : Nat → RawIdentifier → RawSliceKey K → Option (SliceResult K V)
  | 0, _, _ => none
  | depth + 1, nodec, raw =>
    if t.isSen nodec then
      sliceSingleEntry t (depth + 1) nodec (storedEntry ns (depth + 1) nodec) raw
    else do
      let node ← find (ns.fns (depth + 1)) nodec
      let i := node.minFixedKeypartI (depth + 1) raw
      let fixed ← raw[i]?
      let child := resolve t ns (depth + 1) node fixed.1 fixed.2
      if child.isEmpty then some (.node seed)
      else if raw.length = 1 then some (.node child)
      else sliceRek depth child (raw.subkeyI i)

def slice (depth : Nat) (nodec : RawIdentifier) (raw : RawSliceKey K) : Option (SliceResult K V) :=
  if raw.length = 0 then some (.node nodec)
  else if depth = raw.length then (get t ns depth nodec (raw.map Prod.snd)).map .value
  else if nodec.isEmpty then some (.node seed)
  else sliceRek t ns depth nodec raw

/-- A slice of a slice. -/
def sliceAgain (depth : Nat) (raw : RawSliceKey K) : SliceResult K V → Option (SliceResult K V)
  | .node nodec => slice t ns depth nodec raw
  | .singleEntry identifier entry => sliceSingleEntry t depth identifier (some entry) raw
  | .value _ => none

end RawHypertrieContext

section Spec

variable [Inhabited K]
variable {t : HypertrieTrait K V} {F : Nat → Finset (SingleEntry K V) → Prop}
variable {ns : NodeStorage M K V} {d : Nat} {S : Finset (SingleEntry K V)} {sliceKey : SliceKey K}

/-- A container for the set needs no more than the storage: its node is stored, or it is a single
entry in place. -/
def Held (t : HypertrieTrait K V) (F : Nat → Finset (SingleEntry K V) → Prop)
    (ns : NodeStorage M K V) (d : Nat) (T : Finset (SingleEntry K V)) : Prop :=
  (T.Nonempty → F d T) ∧ Stored t ns d T ∨ t.inPlaceNode d = true ∧ ∃ e, T = {e}

/-- The result of a slice is the set `T` of entries of depth `d`. -/
def SliceResult.Holds (t : HypertrieTrait K V) (F : Nat → Finset (SingleEntry K V) → Prop)
    (ns : NodeStorage M K V) (d : Nat) (T : Finset (SingleEntry K V)) : SliceResult K V → Prop
  | .node nodec => 0 < d ∧ nodec = t.ident d T ∧ Held t F ns d T
  | .singleEntry identifier entry => 0 < d ∧ t.inPlaceNode d = false ∧ T = {entry} ∧
      identifier = t.ident d {entry}
  | .value v => d = 0 ∧ ValueAt t T [] v

/-- The same for a result that needs no storage at all. -/
def SliceResult.HoldsOwn (t : HypertrieTrait K V) (d : Nat) (T : Finset (SingleEntry K V)) :
    SliceResult K V → Prop
  | .node nodec => 0 < d ∧ nodec = t.ident d T ∧ (T = ∅ ∨ t.inPlaceNode d = true ∧ ∃ e, T = {e})
  | .singleEntry identifier entry => 0 < d ∧ t.inPlaceNode d = false ∧ T = {entry} ∧
      identifier = t.ident d {entry}
  | .value v => d = 0 ∧ ValueAt t T [] v

theorem stored_empty : Stored t ns d ∅ :=
  ⟨fun h => by simp at h, fun h => by simp at h⟩

theorem SliceResult.holds_empty (hd : 0 < d) :
    (SliceResult.node seed : SliceResult K V).Holds t F ns d ∅ :=
  ⟨hd, HypertrieTrait.ident_empty.symm, Or.inl ⟨fun h => by simp at h, stored_empty⟩⟩

theorem SliceResult.HoldsOwn.holds {T : Finset (SingleEntry K V)} {res : SliceResult K V}
    (h : res.HoldsOwn t d T) : res.Holds t F ns d T := by
  cases res with
  | node nodec =>
    obtain ⟨hd, hid, rfl | hp⟩ := h
    · exact ⟨hd, hid, Or.inl ⟨fun hn => by simp at hn, stored_empty⟩⟩
    · exact ⟨hd, hid, Or.inr hp⟩
  | singleEntry identifier entry => exact h
  | value v => exact h

variable [DecidableEq K] [DecidableEq V]

omit [Inhabited K] in
theorem sliceSet_singleton {e : SingleEntry K V} : sliceKey.sliceSet {e} =
    if sliceKey.agrees e.key then {⟨sliceKey.deleteFixed e.key, e.value⟩} else ∅ := by
  unfold SliceKey.sliceSet
  rw [Finset.filter_singleton]
  split
  next h => rw [Finset.image_singleton]
  next h => rfl

/-- With every position fixed the slice is the value of the key. -/
theorem valueAt_sliceSet (hl : ∀ e ∈ S, e.key.length = sliceKey.length)
    (ha : sliceKey.getFixedDepth = sliceKey.length) {v : V}
    (h : ValueAt t S sliceKey.fixedKey v) : ValueAt t (sliceKey.sliceSet S) [] v := by
  rcases h with h | ⟨rfl, hn⟩
  · have hlen := hl _ h
    refine Or.inl (SliceKey.mem_sliceSet.mpr ⟨_, h, (SliceKey.agrees_of_all hlen ha).mpr rfl, ?_⟩)
    rw [SliceKey.deleteFixed_of_all hlen ha]
  · refine Or.inr ⟨rfl, fun e he _ => ?_⟩
    obtain ⟨e', he', hag, -⟩ := SliceKey.mem_sliceSet.mp he
    exact hn e' he' ((SliceKey.agrees_of_all (hl e' he') ha).mp hag)

/-- The slice of one entry whose node, if it needs one, holds that entry. -/
theorem sliceSingleEntry_spec {e : SingleEntry K V} (hset : IsEntrySet t d {e})
    {entry : Option (SingleEntry K V)} (hentry : t.inPlaceNode d = false → entry = some e)
    (hl : sliceKey.length = d) (hd : 0 < d) (hne : sliceKey.getFixedDepth = 0 → t.inPlaceNode d = false) :
    Ensures (RawHypertrieContext.sliceSingleEntry t d (t.ident d {e}) entry (.ofSliceKey sliceKey))
      (SliceResult.HoldsOwn t (d - sliceKey.getFixedDepth) (sliceKey.sliceSet {e})) := by
  have hlen : e.key.length = sliceKey.length :=
    (hset.length e (Finset.mem_singleton_self e)).trans hl.symm
  have hle := SliceKey.getFixedDepth_le sliceKey
  unfold RawHypertrieContext.sliceSingleEntry
  rw [show (RawSliceKey.ofSliceKey sliceKey).length = sliceKey.getFixedDepth from
    RawSliceKey.length_fixedValues 0 sliceKey]
  by_cases h0 : sliceKey.getFixedDepth = 0
  · have hp := hne h0
    rw [if_pos h0, hentry hp, SliceKey.sliceSet_of_none h0, h0, Nat.sub_zero]
    exact Ensures.pure ⟨hd, hp, rfl, rfl⟩
  rw [if_neg h0]
  by_cases hall : d = sliceKey.getFixedDepth
  · have ha : sliceKey.getFixedDepth = sliceKey.length := by omega
    rw [if_pos hall, show (RawSliceKey.ofSliceKey sliceKey).map Prod.snd = sliceKey.fixedKey from
      RawSliceKey.map_snd_fixedValues ha]
    have hkey : sliceKey.fixedKey.length = d := by simp [SliceKey.fixedKey, hl]
    refine Ensures.map ((getSingleEntry_spec hset hentry hkey).mono fun v hv => ⟨by omega, ?_⟩)
    refine valueAt_sliceSet (fun e' he' => ?_) ha hv
    rw [Finset.mem_singleton.mp he', hlen]
  · have hseed : (t.ident d {e}).isEmpty ≠ true := by
      rw [HypertrieTrait.ident_singleton, HypertrieTrait.encodeSingleEntry_eq]
      simp [HypertrieTrait.isEmpty_tagAsSen]
    have hp : t.inPlaceNode d = false := by
      by_contra hp
      have := (HypertrieTrait.inPlaceNode_iff.mp (by simpa using hp)).2.2
      omega
    rw [if_neg hall, if_neg hseed, hentry hp, sliceSet_singleton]
    simp only [Option.bind_eq_bind, Option.bind_some, RawSliceKey.slice_ofSliceKey hlen]
    by_cases hag : sliceKey.agrees e.key = true
    · rw [if_pos hag, if_pos hag]
      refine Ensures.pure ?_
      split
      next hplace =>
        exact ⟨by omega, (HypertrieTrait.ident_singleton _).symm, Or.inr ⟨hplace, _, rfl⟩⟩
      next hplace =>
        exact ⟨by omega, by simpa using hplace, rfl, (HypertrieTrait.ident_singleton _).symm⟩
    · rw [if_neg hag, if_neg hag]
      exact Ensures.pure ⟨by omega, HypertrieTrait.ident_empty.symm, Or.inl rfl⟩

theorem sliceRek_spec (hr : Readable t F ns) (hS : F d S) (hne : S.Nonempty) (hst : Stored t ns d S)
    (hl : sliceKey.length = d) (h0 : 0 < sliceKey.getFixedDepth) (hlt : sliceKey.getFixedDepth < d) :
    Ensures (RawHypertrieContext.sliceRek t ns d (t.ident d S) (.ofSliceKey sliceKey))
      (SliceResult.Holds t F ns (d - sliceKey.getFixedDepth) (sliceKey.sliceSet S)) := by
  induction d generalizing S sliceKey with
  | zero => exact absurd hlt (Nat.not_lt_zero _)
  | succ d ih =>
    have hF := hr.inPlay
    have hset := hF.entrySet hS
    unfold RawHypertrieContext.sliceRek
    by_cases hs : t.isSen (t.ident (d + 1) S) = true
    · obtain ⟨e, rfl⟩ := Finset.card_eq_one.mp (HypertrieTrait.isSen_ident_iff.mp hs)
      rw [if_pos hs]
      exact (sliceSingleEntry_spec hset (storedEntry_of_stored hF (hr.nodes _) hS hst) hl (by omega)
        (by omega)).mono fun res hres => hres.holds
    have hcard : 2 ≤ S.card := by
      have h1 : S.card ≠ 1 := fun h1 => hs (HypertrieTrait.isSen_ident_iff.mpr h1)
      have := hne.card_pos
      omega
    obtain ⟨n, hn⟩ := contains_iff.mp (hst.fn hcard)
    have hrep := (hr.nodes (d + 1)).represents hF hS hn
    have hlen := RawSliceKey.length_fixedValues 0 sliceKey
    have hi : n.minFixedKeypartI (d + 1) (RawSliceKey.ofSliceKey sliceKey) <
        (RawSliceKey.fixedValues 0 sliceKey).length := n.minFixedKeypartI_lt (by
      show 0 < (RawSliceKey.fixedValues 0 sliceKey).length
      omega)
    obtain ⟨pos, part, hpos, hfix, hsub⟩ := RawSliceKey.exists_fixed hi
    rw [Nat.zero_add] at hfix
    have hp : pos < d + 1 := hl ▸ (List.getElem?_eq_some_iff.mp hpos).1
    have hchild := hr.children (d + 1) (by omega) S hS hcard (hst.fn hcard) pos hp part
    have hslice : sliceKey.sliceSet S = SliceKey.sliceSet (sliceKey.eraseIdx pos) (split S pos part) :=
      SliceKey.sliceSet_split (fun e he => (hset.length e he).trans hl.symm) hpos
    have hfixed : SliceKey.getFixedDepth (sliceKey.eraseIdx pos) + 1 = sliceKey.getFixedDepth := by
      rw [← hlen, ← RawSliceKey.length_fixedValues 0, ← hsub, RawSliceKey.subkeyI]
      simp only [List.length_append, List.length_take, List.length_map, List.length_drop]
      omega
    rw [if_neg hs, hn]
    simp only [Option.bind_eq_bind, Option.bind_some]
    rw [show (RawSliceKey.ofSliceKey sliceKey)[n.minFixedKeypartI (d + 1) (.ofSliceKey sliceKey)]? =
      some (pos, part) from hfix]
    simp only [Option.bind_some]
    rw [resolve_spec hrep (by omega) hp part hchild hF
      fun h => hF.split hS hcard hp (by omega) h, Nat.add_sub_cancel]
    rcases (split S pos part).eq_empty_or_nonempty with hempty | hsplit
    · rw [hempty, HypertrieTrait.ident_empty, if_pos (by simp [RawIdentifier.isEmpty]), hslice, hempty,
        SliceKey.sliceSet_empty]
      exact Ensures.pure (SliceResult.holds_empty (by omega))
    have hSF : F d (split S pos part) := hF.split hS hcard hp (by omega) hsplit
    have hseed := hF.ident_ne_seed hSF hsplit
    rw [if_neg (by simpa [RawIdentifier.isEmpty] using hseed), hslice]
    split
    next h1 =>
      have hz : SliceKey.getFixedDepth (sliceKey.eraseIdx pos) = 0 := by
        have h1 : (RawSliceKey.fixedValues 0 sliceKey).length = 1 := h1
        omega
      rw [SliceKey.sliceSet_of_none hz, show d + 1 - sliceKey.getFixedDepth = d by omega]
      exact Ensures.pure ⟨by omega, rfl, Or.inl ⟨fun _ => hSF, hchild⟩⟩
    next h1 =>
      have h1 : (RawSliceKey.fixedValues 0 sliceKey).length ≠ 1 := h1
      have hle : (sliceKey.eraseIdx pos).length = d := by
        rw [List.length_eraseIdx_of_lt (by omega), hl, Nat.add_sub_cancel]
      rw [show RawSliceKey.subkeyI (RawSliceKey.ofSliceKey sliceKey) _ = _ from hsub,
        show d + 1 - sliceKey.getFixedDepth =
          d - SliceKey.getFixedDepth (sliceKey.eraseIdx pos) by omega]
      exact ih hSF hsplit hchild hle (by omega) (by omega)

theorem get_of_held (hr : Readable t F ns) (hd : 0 < d) (hset : IsEntrySet t d S)
    (hS : Held t F ns d S) {key : List K} (hl : key.length = d) :
    Ensures (RawHypertrieContext.get t ns d (t.ident d S) key) (ValueAt t S key) := by
  rcases hS with ⟨hF, hst⟩ | ⟨hp, e, rfl⟩
  · exact get_spec hr hd hF hst hl
  · obtain ⟨d, rfl⟩ : ∃ d', d = d' + 1 := ⟨d - 1, by omega⟩
    unfold RawHypertrieContext.get
    rw [if_pos (HypertrieTrait.isSen_ident_singleton e)]
    refine getSingleEntry_spec hset (fun hn => ?_) hl
    rw [hp] at hn
    cases hn

/-- Slicing a node filters its entries by the fixed positions and projects these away. -/
theorem slice_spec (hr : Readable t F ns) (hd : 0 < d) (hset : IsEntrySet t d S)
    (hS : Held t F ns d S) (hl : sliceKey.length = d) :
    Ensures (RawHypertrieContext.slice t ns d (t.ident d S) (.ofSliceKey sliceKey))
      (SliceResult.Holds t F ns (d - sliceKey.getFixedDepth) (sliceKey.sliceSet S)) := by
  have hle := SliceKey.getFixedDepth_le sliceKey
  unfold RawHypertrieContext.slice
  rw [show (RawSliceKey.ofSliceKey sliceKey).length = sliceKey.getFixedDepth from
    RawSliceKey.length_fixedValues 0 sliceKey]
  by_cases h0 : sliceKey.getFixedDepth = 0
  · rw [if_pos h0, SliceKey.sliceSet_of_none h0, h0, Nat.sub_zero]
    exact Ensures.pure ⟨hd, rfl, hS⟩
  rw [if_neg h0]
  by_cases hall : d = sliceKey.getFixedDepth
  · have ha : sliceKey.getFixedDepth = sliceKey.length := by omega
    rw [if_pos hall, show (RawSliceKey.ofSliceKey sliceKey).map Prod.snd = sliceKey.fixedKey from
      RawSliceKey.map_snd_fixedValues ha]
    have hkey : sliceKey.fixedKey.length = d := by simp [SliceKey.fixedKey, hl]
    refine Ensures.map ((get_of_held hr hd hset hS hkey).mono fun v hv => ⟨by omega, ?_⟩)
    exact valueAt_sliceSet (fun e he => (hset.length e he).trans hl.symm) ha hv
  · rw [if_neg hall]
    rcases S.eq_empty_or_nonempty with rfl | hne
    · rw [HypertrieTrait.ident_empty, if_pos (by simp [RawIdentifier.isEmpty]), SliceKey.sliceSet_empty]
      exact Ensures.pure (SliceResult.holds_empty (by omega))
    rcases hS with ⟨hF, hst⟩ | ⟨hp, -⟩
    · have hseed := hr.inPlay.ident_ne_seed (hF hne) hne
      rw [if_neg (by simpa [RawIdentifier.isEmpty] using hseed)]
      exact sliceRek_spec hr (hF hne) hne hst hl (by omega) (by omega)
    · -- an entry in place has one position, so all or none are fixed
      have := (HypertrieTrait.inPlaceNode_iff.mp hp).2.2
      omega

theorem sliceAgain_spec (hr : Readable t F ns) (hd : 0 < d) (hset : IsEntrySet t d S)
    {res : SliceResult K V} (hS : res.Holds t F ns d S) (hl : sliceKey.length = d) :
    Ensures (RawHypertrieContext.sliceAgain t ns d (.ofSliceKey sliceKey) res)
      (SliceResult.Holds t F ns (d - sliceKey.getFixedDepth) (sliceKey.sliceSet S)) := by
  cases res with
  | node nodec =>
    obtain ⟨-, rfl, hheld⟩ := hS
    exact slice_spec hr hd hset hheld hl
  | singleEntry identifier entry =>
    obtain ⟨-, hp, rfl, rfl⟩ := hS
    exact (sliceSingleEntry_spec hset (fun _ => rfl) hl hd fun _ => hp).mono fun res hres => hres.holds
  | value v =>
    obtain ⟨h0, -⟩ := hS
    omega

end Spec

end Hypertrie
