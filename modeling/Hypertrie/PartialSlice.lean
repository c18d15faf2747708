import Hypertrie.DiagonalSlice

/-! The algebra of fixed positions. Fixing one position and slicing what is left of the
key gives what the whole slice key or mask gives, whichever position comes first. -/

namespace Hypertrie

variable {K V : Type} [DecidableEq V]

namespace RawSliceKey

/-- The fixed positions ascend and are positions of a key of that depth. A later position is
therefore never 0, and moving it forward does not wrap around. -/
structure Fits (depth : Nat) (raw : RawSliceKey K) : Prop where
  ascending : raw.Pairwise (fun fixed fixed' => fixed.1 < fixed'.1)
  lt : ∀ fixed ∈ raw, fixed.1 < depth

/-- Some fixed positions one after another, each by its number among those left, and then the
rest at once. -/
def consume [DecidableEq K] [Inhabited K] : List Nat → RawSliceKey K → List K → Option (List K)
  | [], raw, key => slice raw key
  | i :: order, raw, key =>
    match raw[i]? with
    | none => none
    | some (pos, part) =>
      if keyAt key pos = part then consume order (subkeyI raw i) (subkey key pos) else none

/-- Each number is one of a fixed position that is left. -/
def IsOrder : List Nat → Nat → Prop
  | [], _ => True
  | i :: order, fixedDepth => i < fixedDepth ∧ IsOrder order (fixedDepth - 1)

section Fits

variable {raw : RawSliceKey K} {key : List K} {keyPos depth : Nat}

theorem lt_of_mem_fixedValues {sliceKey : SliceKey K} {fixed : Nat × K}
    (h : fixed ∈ fixedValues keyPos sliceKey) : fixed.1 < keyPos + sliceKey.length := by
  induction sliceKey generalizing keyPos with
  | nil => simp [fixedValues] at h
  | cons item sliceKey ih =>
    rw [List.length_cons]
    cases item with
    | some part =>
      rcases List.mem_cons.mp h with rfl | h
      · simp
      · have := ih h
        omega
    | none =>
      have := ih h
      omega

theorem pairwise_fixedValues (keyPos : Nat) (sliceKey : SliceKey K) :
    (fixedValues keyPos sliceKey).Pairwise (fun fixed fixed' => fixed.1 < fixed'.1) := by
  induction sliceKey generalizing keyPos with
  | nil => exact List.Pairwise.nil
  | cons item sliceKey ih =>
    cases item with
    | some part =>
      apply List.Pairwise.cons _ (ih _)
      intro fixed hfixed
      exact le_of_mem_fixedValues hfixed
    | none => exact ih _

theorem fits_ofSliceKey (sliceKey : SliceKey K) : Fits sliceKey.length (ofSliceKey sliceKey) :=
  ⟨pairwise_fixedValues 0 sliceKey, fun _ h => by simpa using lt_of_mem_fixedValues h⟩

/-- Ascending positions are the fixed positions of a slice key. -/
theorem exists_fixedValues (hraw : raw.Pairwise (fun fixed fixed' => fixed.1 < fixed'.1))
    (h : ∀ fixed ∈ raw, keyPos ≤ fixed.1 ∧ fixed.1 < keyPos + depth) :
    ∃ sliceKey : SliceKey K, sliceKey.length = depth ∧ fixedValues keyPos sliceKey = raw := by
  induction depth generalizing keyPos raw with
  | zero =>
    cases raw with
    | nil => exact ⟨[], rfl, rfl⟩
    | cons fixed raw =>
      have := h fixed List.mem_cons_self
      omega
  | succ depth ih =>
    have hskip (hne : ∀ fixed ∈ raw, keyPos ≠ fixed.1) : ∃ sliceKey : SliceKey K,
        sliceKey.length = depth + 1 ∧ fixedValues keyPos sliceKey = raw := by
      obtain ⟨sliceKey, hlen, hvalues⟩ := @ih raw (keyPos + 1) hraw (fun fixed hfixed => by
        have := h fixed hfixed
        have := hne fixed hfixed
        omega)
      exact ⟨none :: sliceKey, by simpa using hlen, hvalues⟩
    cases raw with
    | nil => exact hskip (by simp)
    | cons fixed raw =>
      obtain ⟨pos, part⟩ := fixed
      obtain ⟨hpos, htail⟩ := List.pairwise_cons.mp hraw
      by_cases heq : keyPos = pos
      · subst heq
        obtain ⟨sliceKey, hlen, hvalues⟩ := @ih raw (keyPos + 1) htail (fun fixed hfixed => by
          have := h fixed (List.mem_cons_of_mem _ hfixed)
          have : keyPos < fixed.1 := hpos fixed hfixed
          omega)
        exact ⟨some part :: sliceKey, by simpa using hlen, by rw [fixedValues, hvalues]⟩
      · apply hskip
        intro fixed hfixed
        have hle : keyPos ≤ pos := (h _ List.mem_cons_self).1
        rcases List.mem_cons.mp hfixed with rfl | hfixed
        · exact heq
        · have : pos < fixed.1 := hpos fixed hfixed
          omega

theorem Fits.exists_sliceKey (h : Fits depth raw) :
    ∃ sliceKey : SliceKey K, sliceKey.length = depth ∧ ofSliceKey sliceKey = raw := by
  apply exists_fixedValues h.ascending
  intro fixed hfixed
  have := h.lt fixed hfixed
  omega

/-- The fixed position `i` of a raw slice key, on both sides of the translation. -/
theorem Fits.split (h : Fits key.length raw) {i pos : Nat} {part : K}
    (hi : raw[i]? = some (pos, part)) : ∃ sliceKey : SliceKey K,
      sliceKey.length = key.length ∧ sliceKey[pos]? = some (some part) ∧
      ofSliceKey sliceKey = raw ∧ ofSliceKey (sliceKey.eraseIdx pos) = subkeyI raw i := by
  obtain ⟨sliceKey, hlen, rfl⟩ := h.exists_sliceKey
  obtain ⟨hlt, -⟩ := List.getElem?_eq_some_iff.mp hi
  obtain ⟨pos', part', hpart, hfixed, herase⟩ := exists_fixed hlt
  have heq : ((0 + pos', part') : Nat × K) = (pos, part) := Option.some.inj (hfixed.symm.trans hi)
  obtain ⟨rfl, rfl⟩ : pos' = pos ∧ part' = part := by simpa using heq
  exact ⟨sliceKey, hlen, hpart, rfl, herase.symm⟩

theorem lt_of_getElem?_eq_some {sliceKey : SliceKey K} {pos : Nat} {item : Option K}
    (h : sliceKey[pos]? = some item) : pos < sliceKey.length :=
  (List.getElem?_eq_some_iff.mp h).1

theorem Fits.subkeyI (h : Fits key.length raw) {i pos : Nat} {part : K}
    (hi : raw[i]? = some (pos, part)) : Fits (subkey key pos).length (subkeyI raw i) := by
  obtain ⟨sliceKey, hlen, hpart, -, herase⟩ := h.split hi
  have hlt := lt_of_getElem?_eq_some hpart
  rw [length_subkey (hlen ▸ hlt), ← hlen, ← List.length_eraseIdx_of_lt hlt, ← herase]
  exact fits_ofSliceKey _

variable [DecidableEq K] [Inhabited K]

/-- One fixed position first. -/
theorem Fits.slice_eq (h : Fits key.length raw) {i pos : Nat} {part : K}
    (hi : raw[i]? = some (pos, part)) : slice raw key =
      if keyAt key pos = part then slice (RawSliceKey.subkeyI raw i) (subkey key pos) else none := by
  obtain ⟨sliceKey, hlen, hpart, rfl, herase⟩ := h.split hi
  have hlt := lt_of_getElem?_eq_some hpart
  have hsub : (subkey key pos).length = (sliceKey.eraseIdx pos).length := by
    rw [length_subkey (hlen ▸ hlt), ← hlen, List.length_eraseIdx_of_lt hlt]
  obtain ⟨hagrees, hdelete⟩ := SliceKey.agrees_eraseIdx hlen.symm hpart
  rw [← herase, slice_ofSliceKey hlen.symm, slice_ofSliceKey hsub, hdelete]
  by_cases hk : keyAt key pos = part
  · simp [hagrees, hk]
  · simp [hagrees, hk]

omit [DecidableEq K] [Inhabited K] in
theorem length_subkeyI {i : Nat} (hi : i < raw.length) :
    (RawSliceKey.subkeyI raw i).length = raw.length - 1 := by
  rw [RawSliceKey.subkeyI, List.length_append, List.length_take, List.length_map, List.length_drop]
  omega

/-- In whatever order fixed positions are consumed, the key is cut in the same way. -/
theorem consume_eq_slice {order : List Nat} (h : Fits key.length raw)
    (horder : IsOrder order raw.length) : consume order raw key = slice raw key := by
  induction order generalizing raw key with
  | nil => rfl
  | cons i order ih =>
    obtain ⟨hi, horder⟩ := horder
    have hget : raw[i]? = some (raw[i].1, raw[i].2) := List.getElem?_eq_getElem hi
    rw [← length_subkeyI hi] at horder
    rw [consume, hget, h.slice_eq hget]
    show (if _ then _ else _) = _
    rw [ih (h.subkeyI hget) horder]

end Fits

end RawSliceKey

namespace RawKeyPositions

variable [DecidableEq K] [Inhabited K]
variable {mask : RawKeyPositions} {key : List K}

/-- Some positions of a mask one after another, each as it is in what is left of the mask. -/
def consume : List Nat → RawKeyPositions → List K → K → Option (List K)
  | [], mask, key, fixedKeyPart => mask.slice key fixedKeyPart
  | pos :: order, mask, key, fixedKeyPart =>
    if keyAt key pos = fixedKeyPart then
      consume order (mask.subRawKeyPositions pos) (subkey key pos) fixedKeyPart
    else none

def IsOrder : List Nat → RawKeyPositions → Prop
  | [], _ => True
  | pos :: order, mask => mask.isSet pos = true ∧ IsOrder order (mask.subRawKeyPositions pos)

omit [DecidableEq K] [Inhabited K] in
theorem length_sub (h : key.length = mask.length) {pos : Nat} (hpos : mask.isSet pos = true) :
    (subkey key pos).length = (mask.subRawKeyPositions pos).length := by
  have hlt := lt_length_of_isSet hpos
  have hsub := length_subRawKeyPositions hpos
  rw [length_subkey (h ▸ hlt)]
  omega

theorem slice_eq_sub (h : key.length = mask.length) {pos : Nat} (hpos : mask.isSet pos = true)
    (fixedKeyPart : K) : mask.slice key fixedKeyPart = if keyAt key pos = fixedKeyPart then
      (mask.subRawKeyPositions pos).slice (subkey key pos) fixedKeyPart else none := by
  have hlen : key.length = (mask.sliceKey fixedKeyPart).length := by
    rw [length_sliceKey]
    exact h
  obtain ⟨hagrees, hdelete⟩ := SliceKey.agrees_eraseIdx hlen (getElem?_sliceKey hpos fixedKeyPart)
  rw [slice_eq h, slice_eq (length_sub h hpos), sliceKey_eraseIdx, hdelete]
  by_cases hk : keyAt key pos = fixedKeyPart
  · simp [hagrees, hk]
  · simp [hagrees, hk]

theorem consume_eq_slice {order : List Nat} (h : key.length = mask.length)
    (horder : IsOrder order mask) (fixedKeyPart : K) :
    consume order mask key fixedKeyPart = mask.slice key fixedKeyPart := by
  induction order generalizing mask key with
  | nil => rfl
  | cons pos order ih =>
    obtain ⟨hpos, horder⟩ := horder
    rw [consume, slice_eq_sub h hpos, ih (length_sub h hpos) horder]

end RawKeyPositions

theorem if_some_iff {c : Prop} [Decidable c] {x : Option (List K)} {r : List K} :
    (if c then x else none) = some r ↔ c ∧ x = some r := by
  by_cases hc : c
  · simp [hc]
  · simp [hc]

/-- Slicing a key by a slice key, or by a mask, is slicing it at one fixed position and then
slicing what is left by the rest; any order of the fixed positions gives the same result. -/
theorem slice_one_by_one [DecidableEq K] [Inhabited K]
    {raw : RawSliceKey K} {mask : RawKeyPositions} {key : List K}
    (hraw : raw.Fits key.length) (hmask : mask.length = key.length) (fixedKeyPart : K) :
    (∀ i pos part, raw[i]? = some (pos, part) → ∀ r, raw.slice key = some r ↔
      key[pos]? = some part ∧ (raw.subkeyI i).slice (subkey key pos) = some r) ∧
    (∀ order, RawSliceKey.IsOrder order raw.length →
      RawSliceKey.consume order raw key = raw.slice key) ∧
    (∀ pos, mask.isSet pos = true → ∀ r, mask.slice key fixedKeyPart = some r ↔
      key[pos]? = some fixedKeyPart ∧
        (mask.subRawKeyPositions pos).slice (subkey key pos) fixedKeyPart = some r) ∧
    (∀ order, RawKeyPositions.IsOrder order mask →
      RawKeyPositions.consume order mask key fixedKeyPart = mask.slice key fixedKeyPart) := by
  have hkeyAt {pos : Nat} {part : K} (hpos : pos < key.length) :
      key[pos]? = some part ↔ keyAt key pos = part := by
    rw [keyAt, List.getElem?_eq_getElem hpos, List.getD_eq_getElem _ _ hpos, Option.some.injEq]
  refine ⟨fun i pos part hi r => ?_, fun order horder => RawSliceKey.consume_eq_slice hraw horder,
    fun pos hpos r => ?_, fun order horder => RawKeyPositions.consume_eq_slice hmask.symm horder _⟩
  · rw [hkeyAt (hraw.lt _ (List.mem_of_getElem? hi)), hraw.slice_eq hi, if_some_iff]
  · rw [hkeyAt (hmask ▸ RawKeyPositions.lt_length_of_isSet hpos),
      RawKeyPositions.slice_eq_sub hmask.symm hpos, if_some_iff]

theorem slice_one_by_one_three :
    (∀ i pos part, [(0, 7), (2, 8)][i]? = some (pos, part) → ∀ r,
      RawSliceKey.slice [(0, 7), (2, 8)] [7, 5, 8] = some r ↔ [7, 5, 8][pos]? = some part ∧
        (RawSliceKey.subkeyI [(0, 7), (2, 8)] i).slice (subkey [7, 5, 8] pos) = some r) ∧
    (∀ order, RawSliceKey.IsOrder order 2 → RawSliceKey.consume order [(0, 7), (2, 8)] [7, 5, 8] =
      RawSliceKey.slice [(0, 7), (2, 8)] [7, 5, 8]) ∧
    (∀ pos, RawKeyPositions.isSet [true, false, true] pos = true → ∀ r,
      RawKeyPositions.slice [true, false, true] [7, 5, 8] 7 = some r ↔ [7, 5, 8][pos]? = some 7 ∧
        (RawKeyPositions.subRawKeyPositions [true, false, true] pos).slice (subkey [7, 5, 8] pos) 7 =
          some r) ∧
    (∀ order, RawKeyPositions.IsOrder order [true, false, true] →
      RawKeyPositions.consume order [true, false, true] [7, 5, 8] 7 =
        RawKeyPositions.slice [true, false, true] [7, 5, 8] 7) := by
  have hraw : RawSliceKey.Fits [7, 5, 8].length [(0, 7), (2, 8)] := ⟨by simp, by simp⟩
  have hmask : [true, false, true].length = [7, 5, 8].length := rfl
  exact slice_one_by_one hraw hmask 7

end Hypertrie
