import Hypertrie.EntrySet

/-! Slice keys. A slice key fixes some key parts; slicing keeps the entries that
agree with them and deletes the fixed positions. -/

namespace Hypertrie

variable {K V : Type} [DecidableEq K] [DecidableEq V]

abbrev SliceKey (K : Type) := List (Option K)

namespace SliceKey

def getFixedDepth (sliceKey : SliceKey K) : Nat :=
  sliceKey.length - sliceKey.countP (fun item => !item.isSome)

/-- The key parts at the fixed positions are the ones that are asked for. -/
def agrees : SliceKey K → List K → Bool
  | some part :: sliceKey, keyPart :: key => part == keyPart && agrees sliceKey key
  | none :: sliceKey, _ :: key => agrees sliceKey key
  | _, _ => true

def deleteFixed : SliceKey K → List K → List K
  | some _ :: sliceKey, _ :: key => deleteFixed sliceKey key
  | none :: sliceKey, keyPart :: key => keyPart :: deleteFixed sliceKey key
  | _, key => key

/-- Filter by the fixed positions and project them away. -/
def sliceSet (sliceKey : SliceKey K) (S : Finset (SingleEntry K V)) : Finset (SingleEntry K V) :=
  (S.filter (fun e => agrees sliceKey e.key)).image (fun e => ⟨deleteFixed sliceKey e.key, e.value⟩)

/-- A slice key for the result of another one, in terms of the original positions. -/
def compose : SliceKey K → SliceKey K → SliceKey K
  | some part :: first, second => some part :: compose first second
  | none :: first, item :: second => item :: compose first second
  | first, _ => first

theorem mem_sliceSet {sliceKey : SliceKey K} {S : Finset (SingleEntry K V)} {e : SingleEntry K V} :
    e ∈ sliceSet sliceKey S ↔
      ∃ e' ∈ S, agrees sliceKey e'.key = true ∧ ⟨deleteFixed sliceKey e'.key, e'.value⟩ = e := by
  simp [sliceSet, and_assoc]

theorem sliceSet_empty (sliceKey : SliceKey K) : sliceSet sliceKey (∅ : Finset (SingleEntry K V)) = ∅ :=
  rfl

omit [DecidableEq K] in
theorem getFixedDepth_some (part : K) (sliceKey : SliceKey K) :
    getFixedDepth (some part :: sliceKey) = getFixedDepth sliceKey + 1 := by
  have h := List.countP_le_length (p := fun item : Option K => !item.isSome) (l := sliceKey)
  simp only [getFixedDepth, List.length_cons, List.countP_cons, Option.isSome_some, Bool.not_true,
    Bool.false_eq_true, if_false, add_zero]
  omega

omit [DecidableEq K] in
theorem getFixedDepth_none (sliceKey : SliceKey K) :
    getFixedDepth (none :: sliceKey) = getFixedDepth sliceKey := by
  simp [getFixedDepth]

omit [DecidableEq K] in
theorem getFixedDepth_le (sliceKey : SliceKey K) : sliceKey.getFixedDepth ≤ sliceKey.length :=
  Nat.sub_le _ _

omit [DecidableEq K] in
theorem length_deleteFixed {sliceKey : SliceKey K} {key : List K} (h : key.length = sliceKey.length) :
    (deleteFixed sliceKey key).length = sliceKey.length - sliceKey.getFixedDepth := by
  induction sliceKey generalizing key with
  | nil => simpa [deleteFixed, getFixedDepth] using h
  | cons item sliceKey ih =>
    cases key with
    | nil => cases h
    | cons keyPart key =>
      have hle := getFixedDepth_le sliceKey
      have ih := ih (show key.length = sliceKey.length by simpa using h)
      cases item with
      | some part =>
        rw [deleteFixed, ih, getFixedDepth_some, List.length_cons]
        omega
      | none =>
        rw [deleteFixed, List.length_cons, ih, getFixedDepth_none, List.length_cons]
        omega

/-- A key is determined by the fixed parts and the rest. -/
theorem eq_of_deleteFixed {sliceKey : SliceKey K} {key key' : List K}
    (h : key.length = sliceKey.length) (h' : key'.length = sliceKey.length)
    (ha : agrees sliceKey key = true) (ha' : agrees sliceKey key' = true)
    (hd : deleteFixed sliceKey key = deleteFixed sliceKey key') : key = key' := by
  induction sliceKey generalizing key key' with
  | nil =>
    rw [List.length_eq_zero_iff.mp h, List.length_eq_zero_iff.mp h']
  | cons item sliceKey ih =>
    cases key with
    | nil => cases h
    | cons keyPart key =>
      cases key' with
      | nil => cases h'
      | cons keyPart' key' =>
        have hl : key.length = sliceKey.length := by simpa using h
        have hl' : key'.length = sliceKey.length := by simpa using h'
        cases item with
        | some part =>
          simp only [agrees, Bool.and_eq_true, beq_iff_eq] at ha ha'
          rw [← ha.1, ← ha'.1, ih hl hl' ha.2 ha'.2 hd]
        | none =>
          obtain ⟨hk, hd⟩ := List.cons.inj hd
          rw [hk, ih hl hl' ha ha' hd]

theorem isEntrySet_sliceSet {t : HypertrieTrait K V} {depth : Nat} {S : Finset (SingleEntry K V)}
    (h : IsEntrySet t depth S) {sliceKey : SliceKey K} (hl : sliceKey.length = depth) :
    IsEntrySet t (depth - sliceKey.getFixedDepth) (sliceSet sliceKey S) := by
  refine ⟨?_, ?_, ?_⟩
  · intro e he
    obtain ⟨e', he', -, rfl⟩ := mem_sliceSet.mp he
    have hlen := h.length e' he'
    rw [length_deleteFixed (hlen.trans hl.symm), hl]
  · intro e he
    obtain ⟨e', he', -, rfl⟩ := mem_sliceSet.mp he
    exact h.value e' he'
  · intro e he f hf hkey
    obtain ⟨e', he', ha, rfl⟩ := mem_sliceSet.mp he
    obtain ⟨f', hf', ha', rfl⟩ := mem_sliceSet.mp hf
    have hk := eq_of_deleteFixed ((h.length e' he').trans hl.symm) ((h.length f' hf').trans hl.symm)
      ha ha' hkey
    rw [h.unique e' he' f' hf' hk]

section NoneFixed

theorem agrees_of_none {sliceKey : SliceKey K} (h : sliceKey.getFixedDepth = 0) (key : List K) :
    agrees sliceKey key = true := by
  induction sliceKey generalizing key with
  | nil => rfl
  | cons item sliceKey ih =>
    cases item with
    | some part =>
      rw [getFixedDepth_some] at h
      cases h
    | none =>
      cases key with
      | nil => rfl
      | cons keyPart key => exact ih (by rwa [getFixedDepth_none] at h) key

omit [DecidableEq K] in
theorem deleteFixed_of_none {sliceKey : SliceKey K} (h : sliceKey.getFixedDepth = 0) (key : List K) :
    deleteFixed sliceKey key = key := by
  induction sliceKey generalizing key with
  | nil => rfl
  | cons item sliceKey ih =>
    cases item with
    | some part =>
      rw [getFixedDepth_some] at h
      cases h
    | none =>
      cases key with
      | nil => rfl
      | cons keyPart key =>
        rw [deleteFixed, ih (by rwa [getFixedDepth_none] at h)]

theorem sliceSet_of_none {sliceKey : SliceKey K} (h : sliceKey.getFixedDepth = 0)
    (S : Finset (SingleEntry K V)) : sliceSet sliceKey S = S := by
  ext e
  simp [mem_sliceSet, agrees_of_none h, deleteFixed_of_none h]

end NoneFixed

section AllFixed

variable [Inhabited K]

/-- The key that is asked for when every position is fixed. -/
def fixedKey (sliceKey : SliceKey K) : List K := sliceKey.map (fun item => item.getD default)

omit [DecidableEq K] [Inhabited K] in
theorem deleteFixed_of_all {sliceKey : SliceKey K} {key : List K} (h : key.length = sliceKey.length)
    (ha : sliceKey.getFixedDepth = sliceKey.length) : deleteFixed sliceKey key = [] := by
  have hl := length_deleteFixed h
  rw [ha, Nat.sub_self] at hl
  exact List.length_eq_zero_iff.mp hl

theorem agrees_of_all {sliceKey : SliceKey K} {key : List K} (h : key.length = sliceKey.length)
    (ha : sliceKey.getFixedDepth = sliceKey.length) :
    agrees sliceKey key = true ↔ key = fixedKey sliceKey := by
  induction sliceKey generalizing key with
  | nil =>
    rw [List.length_eq_zero_iff.mp h]
    simp [agrees, fixedKey]
  | cons item sliceKey ih =>
    cases key with
    | nil => cases h
    | cons keyPart key =>
      cases item with
      | some part =>
        rw [getFixedDepth_some, List.length_cons] at ha
        have ih := ih (show key.length = sliceKey.length by simpa using h) (by omega)
        simp only [agrees, Bool.and_eq_true, beq_iff_eq, ih, fixedKey, List.map_cons,
          Option.getD_some, List.cons.injEq]
        exact and_congr_left fun _ => eq_comm
      | none =>
        have hle := getFixedDepth_le sliceKey
        rw [getFixedDepth_none, List.length_cons] at ha
        omega

end AllFixed

section Compose

theorem agrees_compose {first second : SliceKey K} {key : List K} (hl : key.length = first.length) :
    agrees (compose first second) key =
      (agrees first key && agrees second (deleteFixed first key)) := by
  induction first generalizing second key with
  | nil =>
    rw [List.length_eq_zero_iff.mp hl]
    cases second with
    | nil => rfl
    | cons item second => cases item <;> rfl
  | cons item first ih =>
    cases key with
    | nil => cases hl
    | cons keyPart key =>
      have hlen : key.length = first.length := by simpa using hl
      cases item with
      | some part => simp [compose, agrees, deleteFixed, ih hlen, Bool.and_assoc]
      | none =>
        cases second with
        | nil => simp [compose, agrees]
        | cons item second =>
          cases item with
          | some part => simp [compose, agrees, deleteFixed, ih hlen, Bool.and_left_comm]
          | none => simp [compose, agrees, deleteFixed, ih hlen]

omit [DecidableEq K] in
theorem deleteFixed_compose {first second : SliceKey K} {key : List K}
    (hl : key.length = first.length) :
    deleteFixed (compose first second) key = deleteFixed second (deleteFixed first key) := by
  induction first generalizing second key with
  | nil =>
    rw [List.length_eq_zero_iff.mp hl]
    cases second with
    | nil => rfl
    | cons item second => cases item <;> rfl
  | cons item first ih =>
    cases key with
    | nil => cases hl
    | cons keyPart key =>
      have hlen : key.length = first.length := by simpa using hl
      cases item with
      | some part => simp [compose, deleteFixed, ih hlen]
      | none =>
        cases second with
        | nil => simp [compose, deleteFixed]
        | cons item second =>
          cases item with
          | some part => simp [compose, deleteFixed, ih hlen]
          | none => simp [compose, deleteFixed, ih hlen]

omit [DecidableEq K] in
theorem length_compose (first second : SliceKey K) :
    (compose first second).length = first.length := by
  induction first generalizing second with
  | nil => cases second <;> rfl
  | cons item first ih =>
    cases item with
    | some part => simp [compose, ih]
    | none =>
      cases second with
      | nil => rfl
      | cons item second => simp [compose, ih]

omit [DecidableEq K] in
theorem getFixedDepth_compose {first second : SliceKey K}
    (hl : second.length = first.length - first.getFixedDepth) :
    (compose first second).getFixedDepth = first.getFixedDepth + second.getFixedDepth := by
  induction first generalizing second with
  | nil =>
    rw [List.length_eq_zero_iff.mp hl]
    rfl
  | cons item first ih =>
    have hle := getFixedDepth_le first
    cases item with
    | some part =>
      rw [getFixedDepth_some, List.length_cons] at hl
      rw [compose, getFixedDepth_some, getFixedDepth_some, ih (by omega)]
      omega
    | none =>
      rw [getFixedDepth_none, List.length_cons] at hl
      cases second with
      | nil =>
        rw [List.length_nil] at hl
        omega
      | cons item second =>
        rw [List.length_cons] at hl
        have ih := ih (show second.length = first.length - getFixedDepth first by omega)
        cases item with
        | some part => rw [compose, getFixedDepth_some, getFixedDepth_some, getFixedDepth_none, ih]; omega
        | none => rw [compose, getFixedDepth_none, getFixedDepth_none, getFixedDepth_none, ih]

/-- Slicing a slice is slicing once with the positions of both. -/
theorem sliceSet_compose {first second : SliceKey K} {S : Finset (SingleEntry K V)}
    (hl : ∀ e ∈ S, e.key.length = first.length) :
    sliceSet (compose first second) S = sliceSet second (sliceSet first S) := by
  ext e
  simp only [mem_sliceSet]
  constructor
  · rintro ⟨e', he', ha, rfl⟩
    rw [agrees_compose (hl e' he'), Bool.and_eq_true] at ha
    exact ⟨_, ⟨e', he', ha.1, rfl⟩, ha.2, by rw [deleteFixed_compose (hl e' he')]⟩
  · rintro ⟨e₁, ⟨e', he', ha, rfl⟩, ha', rfl⟩
    refine ⟨e', he', ?_, by rw [deleteFixed_compose (hl e' he')]⟩
    rw [agrees_compose (hl e' he'), ha, ha']
    rfl

end Compose

section Split

variable [Inhabited K]

/-- Fixing one position first: the entries are split there and the rest of the slice key applies. -/
theorem agrees_eraseIdx {sliceKey : SliceKey K} {key : List K} {pos : Nat} {part : K}
    (h : key.length = sliceKey.length) (hp : sliceKey[pos]? = some (some part)) :
    (agrees sliceKey key = true ↔
      keyAt key pos = part ∧ agrees (sliceKey.eraseIdx pos) (subkey key pos) = true) ∧
    deleteFixed sliceKey key = deleteFixed (sliceKey.eraseIdx pos) (subkey key pos) := by
  induction sliceKey generalizing key pos with
  | nil => simp at hp
  | cons item sliceKey ih =>
    cases key with
    | nil => cases h
    | cons keyPart key =>
      cases pos with
      | zero =>
        obtain rfl : item = some part := by simpa using hp
        refine ⟨?_, rfl⟩
        have hk : keyAt (keyPart :: key) 0 = keyPart := rfl
        have hs : subkey (keyPart :: key) 0 = key := rfl
        rw [hk, hs, List.eraseIdx_cons_zero, agrees, Bool.and_eq_true, beq_iff_eq]
        exact and_congr_left fun _ => eq_comm
      | succ pos =>
        have ih := ih (show key.length = sliceKey.length by simpa using h)
          (show sliceKey[pos]? = some (some part) by simpa using hp)
        have hk : keyAt (keyPart :: key) (pos + 1) = keyAt key pos := by simp [keyAt]
        have hs : subkey (keyPart :: key) (pos + 1) = keyPart :: subkey key pos := by simp [subkey]
        rw [hk, hs, List.eraseIdx_cons_succ]
        cases item with
        | some part' =>
          simp only [agrees, deleteFixed, Bool.and_eq_true, ih.1, ih.2, and_true]
          exact and_left_comm
        | none => simp only [agrees, deleteFixed, ih.1, ih.2, and_self]

theorem sliceSet_split {sliceKey : SliceKey K} {S : Finset (SingleEntry K V)} {pos : Nat} {part : K}
    (hl : ∀ e ∈ S, e.key.length = sliceKey.length) (hp : sliceKey[pos]? = some (some part)) :
    sliceSet sliceKey S = sliceSet (sliceKey.eraseIdx pos) (split S pos part) := by
  ext e
  simp only [mem_sliceSet, mem_split]
  constructor
  · rintro ⟨e', he', ha, rfl⟩
    obtain ⟨hiff, hd⟩ := agrees_eraseIdx (hl e' he') hp
    obtain ⟨hk, ha⟩ := hiff.mp ha
    exact ⟨subEntry pos e', ⟨e', he', hk, rfl⟩, ha, by rw [hd]; rfl⟩
  · rintro ⟨e₁, ⟨e', he', hk, rfl⟩, ha, rfl⟩
    obtain ⟨hiff, hd⟩ := agrees_eraseIdx (hl e' he') hp
    exact ⟨e', he', hiff.mpr ⟨hk, ha⟩, by rw [hd]; rfl⟩

end Split

end SliceKey

end Hypertrie
