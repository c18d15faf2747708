import Hypertrie.ConstHypertrie

/-! Diagonal slices. All diagonal positions are fixed to one key part; the
result may be cut out of a single entry that no context knows. -/

namespace Hypertrie

open UnorderedMap

variable {M : Type → Type → Type} [UnorderedMap M] {K V : Type}
variable [DecidableEq V]

/-- A bit for each position. -/
abbrev RawKeyPositions := List Bool

namespace RawKeyPositions

variable [DecidableEq K]

def ofPositions (depth : Nat) (positions : List Nat) : RawKeyPositions :=
  (List.range depth).map (fun pos => positions.contains pos)

/-- `operator[]`. -/
def isSet (mask : RawKeyPositions) (pos : Nat) : Bool := mask.getD pos false

def count (mask : RawKeyPositions) : Nat := mask.countP id

def firstPos (mask : RawKeyPositions) : Nat := mask.idxOf true

def subRawKeyPositions (mask : RawKeyPositions) (removePos : Nat) : RawKeyPositions :=
  mask.eraseIdx removePos

/-- The key without the positions of the mask, if it has the key part at all of them. -/
def slice : RawKeyPositions → List K → K → Option (List K)
  | true :: mask, keyPart :: key, fixedKeyPart =>
    if keyPart ≠ fixedKeyPart then none else slice mask key fixedKeyPart
  | false :: mask, keyPart :: key, fixedKeyPart =>
    (slice mask key fixedKeyPart).map (keyPart :: ·)
  | _, _, _ => some []

/-- The slice key that fixes the positions of the mask. -/
def sliceKey (mask : RawKeyPositions) (keyPart : K) : SliceKey K :=
  mask.map (fun isSet => if isSet then some keyPart else none)

/-- The sub-entries of the entries that have the key part at all positions of the mask. -/
def diagonal (mask : RawKeyPositions) (S : Finset (SingleEntry K V)) (keyPart : K) :
    Finset (SingleEntry K V) :=
  (mask.sliceKey keyPart).sliceSet S

omit [DecidableEq K] in
@[simp]
theorem length_sliceKey (mask : RawKeyPositions) (keyPart : K) :
    (mask.sliceKey keyPart).length = mask.length := List.length_map _

theorem count_le (mask : RawKeyPositions) : mask.count ≤ mask.length := List.countP_le_length

omit [DecidableEq K] in
@[simp]
theorem getFixedDepth_sliceKey (mask : RawKeyPositions) (keyPart : K) :
    (mask.sliceKey keyPart).getFixedDepth = mask.count := by
  induction mask with
  | nil => rfl
  | cons isSet mask ih =>
    cases isSet with
    | true =>
      show SliceKey.getFixedDepth (some keyPart :: sliceKey mask keyPart) = _
      rw [SliceKey.getFixedDepth_some, ih, count, count, List.countP_cons_of_pos rfl]
    | false =>
      show SliceKey.getFixedDepth (none :: sliceKey mask keyPart) = _
      rw [SliceKey.getFixedDepth_none, ih, count, count, List.countP_cons_of_neg (by simp)]

omit [DecidableEq K] in
theorem sliceKey_eraseIdx (mask : RawKeyPositions) (pos : Nat) (keyPart : K) :
    (mask.subRawKeyPositions pos).sliceKey keyPart = (mask.sliceKey keyPart).eraseIdx pos :=
  List.eraseIdx_map .. |>.symm

omit [DecidableEq K] in
theorem getElem?_sliceKey {mask : RawKeyPositions} {pos : Nat} (h : mask.isSet pos = true)
    (keyPart : K) : (mask.sliceKey keyPart)[pos]? = some (some keyPart) := by
  rw [isSet, List.getD_eq_getElem?_getD] at h
  rw [sliceKey, List.getElem?_map]
  cases hp : mask[pos]? with
  | none => simp [hp] at h
  | some isSet =>
    obtain rfl : isSet = true := by simpa [hp] using h
    rfl

theorem lt_length_of_isSet {mask : RawKeyPositions} {pos : Nat} (h : mask.isSet pos = true) :
    pos < mask.length := by
  by_contra hlt
  rw [isSet, List.getD_eq_default _ _ (by omega)] at h
  cases h

theorem length_subRawKeyPositions {mask : RawKeyPositions} {pos : Nat} (h : mask.isSet pos = true) :
    (mask.subRawKeyPositions pos).length + 1 = mask.length := by
  have hlt := lt_length_of_isSet h
  rw [subRawKeyPositions, List.length_eraseIdx_of_lt hlt]
  omega

theorem count_subRawKeyPositions {mask : RawKeyPositions} {pos : Nat} (h : mask.isSet pos = true) :
    (mask.subRawKeyPositions pos).count + 1 = mask.count := by
  induction mask generalizing pos with
  | nil => simp [isSet] at h
  | cons isSet mask ih =>
    cases pos with
    | zero =>
      obtain rfl : isSet = true := by simpa [RawKeyPositions.isSet] using h
      rw [subRawKeyPositions, List.eraseIdx_cons_zero, count, count, List.countP_cons_of_pos rfl]
    | succ pos =>
      have ih := ih (show RawKeyPositions.isSet mask pos = true by simpa [RawKeyPositions.isSet] using h)
      rw [subRawKeyPositions, count] at ih
      rw [subRawKeyPositions, List.eraseIdx_cons_succ, count, count, List.countP_cons,
        List.countP_cons]
      rw [count] at ih
      omega

theorem isSet_firstPos {mask : RawKeyPositions} (h : 0 < mask.count) :
    mask.isSet mask.firstPos = true := by
  obtain ⟨isSet, hmem, rfl⟩ := List.countP_pos_iff.mp h
  have hlt := List.idxOf_lt_length_of_mem hmem
  rw [RawKeyPositions.isSet, firstPos, List.getD_eq_getElem _ _ hlt]
  exact List.getElem_idxOf hlt

/-- Cutting a key along the mask filters and projects as the slice key does. -/
theorem slice_eq {mask : RawKeyPositions} {key : List K} (h : key.length = mask.length)
    (keyPart : K) : mask.slice key keyPart = if (mask.sliceKey keyPart).agrees key then
      some ((mask.sliceKey keyPart).deleteFixed key) else none := by
  induction mask generalizing key with
  | nil =>
    rw [List.length_eq_zero_iff.mp h]
    rfl
  | cons isSet mask ih =>
    cases key with
    | nil => cases h
    | cons part key =>
      have ih := ih (show key.length = mask.length by simpa using h)
      cases isSet with
      | true =>
        show (if part ≠ keyPart then none else slice mask key keyPart) =
          if ((keyPart == part) && (sliceKey mask keyPart).agrees key) then
            some ((sliceKey mask keyPart).deleteFixed key) else none
        by_cases hk : part = keyPart
        · simp [hk, ih]
        · simp [hk, Ne.symm hk]
      | false =>
        show (slice mask key keyPart).map (part :: ·) = if (sliceKey mask keyPart).agrees key then
          some (part :: (sliceKey mask keyPart).deleteFixed key) else none
        rw [ih]
        split <;> rfl

section Diagonal

variable {t : HypertrieTrait K V} {d : Nat} {S : Finset (SingleEntry K V)} {mask : RawKeyPositions}

@[simp]
theorem diagonal_empty (mask : RawKeyPositions) (keyPart : K) :
    mask.diagonal (∅ : Finset (SingleEntry K V)) keyPart = ∅ := rfl

theorem diagonal_of_count_zero (h : mask.count = 0) (S : Finset (SingleEntry K V)) (keyPart : K) :
    mask.diagonal S keyPart = S :=
  SliceKey.sliceSet_of_none (by simpa using h) S

theorem isEntrySet_diagonal (h : IsEntrySet t d S) (hl : mask.length = d) (keyPart : K) :
    IsEntrySet t (d - mask.count) (mask.diagonal S keyPart) := by
  have hs := SliceKey.isEntrySet_sliceSet h
    (show (mask.sliceKey keyPart).length = d by simpa using hl)
  rwa [getFixedDepth_sliceKey] at hs

variable [Inhabited K]

/-- Any of the positions may be fixed first. -/
theorem diagonal_split (h : IsEntrySet t d S) (hl : mask.length = d) {pos : Nat}
    (hp : mask.isSet pos = true) (keyPart : K) :
    mask.diagonal S keyPart = (mask.subRawKeyPositions pos).diagonal (split S pos keyPart) keyPart := by
  rw [diagonal, diagonal, sliceKey_eraseIdx]
  apply SliceKey.sliceSet_split
  · intro e he
    rw [length_sliceKey, hl, h.length e he]
  · exact getElem?_sliceKey hp keyPart

/-- The key parts with a slice that is not empty. -/
def diagonalKeys (mask : RawKeyPositions) (S : Finset (SingleEntry K V)) : Finset K :=
  (keyParts S mask.firstPos).filter (fun keyPart => (mask.diagonal S keyPart).Nonempty)

theorem mem_keyParts_of_nonempty (h : IsEntrySet t d S) (hl : mask.length = d) {pos : Nat}
    (hp : mask.isSet pos = true) {keyPart : K} (hne : (mask.diagonal S keyPart).Nonempty) :
    keyPart ∈ keyParts S pos := by
  rw [diagonal_split h hl hp] at hne
  rw [mem_keyParts]
  by_contra hempty
  rw [Finset.not_nonempty_iff_eq_empty.mp hempty, diagonal_empty] at hne
  simp at hne

theorem mem_diagonalKeys (h : IsEntrySet t d S) (hl : mask.length = d) (hc : 0 < mask.count)
    {keyPart : K} : keyPart ∈ mask.diagonalKeys S ↔ (mask.diagonal S keyPart).Nonempty := by
  rw [diagonalKeys, Finset.mem_filter]
  exact and_iff_right_of_imp (mem_keyParts_of_nonempty h hl (isSet_firstPos hc))

end Diagonal

end RawKeyPositions

namespace FullNode

/-- `min_card_pos` of the positions of the mask. -/
def minCardPosMask (depth : Nat) (n : FullNode M K V) (mask : RawKeyPositions) : Nat :=
  n.minCardPosOf depth ((List.range depth).filter mask.isSet) 0

omit [DecidableEq V] in
theorem isSet_minCardPosMask {depth : Nat} (n : FullNode M K V) {mask : RawKeyPositions}
    (hl : mask.length = depth) (hc : 0 < mask.count) :
    mask.isSet (n.minCardPosMask depth mask) = true := by
  have hfirst := RawKeyPositions.isSet_firstPos hc
  have hmem : mask.firstPos ∈ (List.range depth).filter mask.isSet :=
    List.mem_filter.mpr ⟨List.mem_range.mpr (hl ▸ RawKeyPositions.lt_length_of_isSet hfirst), hfirst⟩
  exact (List.mem_filter.mp (n.minCardPosOf_mem 0 (List.ne_nil_of_mem hmem))).2

end FullNode

namespace RawHypertrieContext

variable [DecidableEq K] [Inhabited K]
variable (t : HypertrieTrait K V) (ns : NodeStorage M K V)

def diagonalSliceRek : Nat → RawIdentifier → RawKeyPositions → K → Option (SliceResult K V)
  | 0, _, _, _ => none
  | depth + 1, nodec, diagonalPositions, fixedKeyPart =>
    if t.isSen nodec then do
      let entry ← storedEntry ns (depth + 1) nodec
      match diagonalPositions.slice entry.key fixedKeyPart with
      | some key =>
        let resultDepth := depth + 1 - diagonalPositions.count
        some (.singleEntry (t.encodeSingleEntry resultDepth ⟨key, entry.value⟩) ⟨key, entry.value⟩)
      | none => some (.node seed)
    else do
      let node ← find (ns.fns (depth + 1)) nodec
      let pos := node.minCardPosMask (depth + 1) diagonalPositions
      let child := resolve t ns (depth + 1) node pos fixedKeyPart
      if child.isEmpty then some (.node seed)
      else if diagonalPositions.count = 1 then some (.node child)
      else diagonalSliceRek depth child (diagonalPositions.subRawKeyPositions pos) fixedKeyPart

def diagonalSlice (depth : Nat) (nodec : RawIdentifier) (diagonalPositions : RawKeyPositions)
    (fixedKeyPart : K) : Option (SliceResult K V) :=
  if diagonalPositions.count = 0 then some (.node nodec)
  else if depth = diagonalPositions.count then
    (get t ns depth nodec (List.replicate depth fixedKeyPart)).map .value
  else if nodec.isEmpty then some (.node seed)
  else diagonalSliceRek t ns depth nodec diagonalPositions fixedKeyPart

end RawHypertrieContext

section Spec

variable [Inhabited K]
variable {t : HypertrieTrait K V} {F : Nat → Finset (SingleEntry K V) → Prop}
variable {ns : NodeStorage M K V} {d : Nat} {S T : Finset (SingleEntry K V)} {mask : RawKeyPositions}
variable {keyPart : K}

/-- The result of a diagonal slice is the set `T` of entries of depth `d`. An entry of its own may
also be one that is stored in its identifier. -/
def SliceResult.DiagonalHolds (t : HypertrieTrait K V) (F : Nat → Finset (SingleEntry K V) → Prop)
    (ns : NodeStorage M K V) (d : Nat) (T : Finset (SingleEntry K V)) : SliceResult K V → Prop
  | .node nodec => 0 < d ∧ nodec = t.ident d T ∧ Held t F ns d T
  | .singleEntry identifier entry => 0 < d ∧ T = {entry} ∧ identifier = t.ident d {entry}
  | .value v => d = 0 ∧ ValueAt t T [] v

/-- There is a slice: its value is not 0, or its container is not empty. -/
def SliceResult.found (t : HypertrieTrait K V) : SliceResult K V → Bool
  | .node nodec => !nodec.isEmpty
  | .singleEntry identifier _ => !identifier.isEmpty
  | .value v => v ≠ t.zero

omit [DecidableEq V] in
theorem SliceResult.DiagonalHolds.empty (hd : 0 < d) :
    (SliceResult.node seed : SliceResult K V).DiagonalHolds t F ns d ∅ :=
  ⟨hd, HypertrieTrait.ident_empty.symm, Or.inl ⟨fun h => by simp at h, stored_empty⟩⟩

omit [DecidableEq V] [Inhabited K] in
theorem valueAt_nil_ne_zero (hset : IsEntrySet t 0 T) {v : V} (h : ValueAt t T [] v) :
    v ≠ t.zero ↔ T.Nonempty := by
  constructor
  · intro hv
    rcases h with h | ⟨rfl, -⟩
    · exact ⟨_, h⟩
    · exact absurd rfl hv
  · rintro ⟨e, he⟩
    rcases h with h | ⟨-, hn⟩
    · exact hset.value _ h
    · exact absurd (List.length_eq_zero_iff.mp (hset.length e he)) (hn e he)

variable [DecidableEq K]

theorem SliceResult.DiagonalHolds.found_iff (hF : InPlay t F) (hset : IsEntrySet t d T)
    {res : SliceResult K V} (h : res.DiagonalHolds t F ns d T) : res.found t = true ↔ T.Nonempty := by
  cases res with
  | node nodec =>
    obtain ⟨-, rfl, hheld⟩ := h
    rw [SliceResult.found, Bool.not_eq_true', ← Bool.not_eq_true, hheld.isEmpty_iff hF]
    exact Finset.nonempty_iff_ne_empty.symm
  | singleEntry identifier entry =>
    obtain ⟨-, rfl, rfl⟩ := h
    simp [SliceResult.found, ident_singleton_ne_seed]
  | value v =>
    obtain ⟨rfl, hv⟩ := h
    rw [SliceResult.found, decide_eq_true_eq, valueAt_nil_ne_zero hset hv]

omit [Inhabited K] in
/-- The diagonal of a single entry. -/
theorem diagonal_singleton {e : SingleEntry K V} (hl : e.key.length = mask.length) (keyPart : K) :
    mask.diagonal {e} keyPart =
      match mask.slice e.key keyPart with
      | some key => {⟨key, e.value⟩}
      | none => ∅ := by
  rw [RawKeyPositions.diagonal, sliceSet_singleton, RawKeyPositions.slice_eq hl]
  by_cases hag : (mask.sliceKey keyPart).agrees e.key = true
  · rw [if_pos hag, if_pos hag]
  · rw [if_neg hag, if_neg hag]

theorem diagonalSliceRek_spec (hr : Readable t F ns) (hS : F d S) (hne : S.Nonempty)
    (hst : Stored t ns d S) (hl : mask.length = d) (h0 : 0 < mask.count) (hlt : mask.count < d) :
    Ensures (RawHypertrieContext.diagonalSliceRek t ns d (t.ident d S) mask keyPart)
      (SliceResult.DiagonalHolds t F ns (d - mask.count) (mask.diagonal S keyPart)) := by
  induction d generalizing S mask with
  | zero => exact absurd hlt (Nat.not_lt_zero _)
  | succ d ih =>
    have hF := hr.inPlay
    have hset := hF.entrySet hS
    rw [RawHypertrieContext.diagonalSliceRek]
    by_cases hs : t.isSen (t.ident (d + 1) S) = true
    · obtain ⟨e, rfl⟩ := Finset.card_eq_one.mp (HypertrieTrait.isSen_ident_iff.mp hs)
      have hlen : e.key.length = mask.length :=
        (hset.length e (Finset.mem_singleton_self e)).trans hl.symm
      have hp : t.inPlaceNode (d + 1) = false := by
        by_contra hp
        have := (HypertrieTrait.inPlaceNode_iff.mp (by simpa using hp)).2.2
        omega
      rw [if_pos hs, storedEntry_of_stored hF (hr.nodes _) hS hst hp, diagonal_singleton hlen keyPart]
      simp only [Option.bind_eq_bind, Option.bind_some]
      cases mask.slice e.key keyPart with
      | none => exact Ensures.pure (.empty (by omega))
      | some key =>
        exact Ensures.pure ⟨by omega, rfl, (HypertrieTrait.ident_singleton _).symm⟩
    have hcard : 2 ≤ S.card := by
      have h1 : S.card ≠ 1 := fun h1 => hs (HypertrieTrait.isSen_ident_iff.mpr h1)
      have := hne.card_pos
      omega
    obtain ⟨n, hn⟩ := contains_iff.mp (hst.fn hcard)
    have hrep := (hr.nodes (d + 1)).represents hF hS hn
    have hpos := n.isSet_minCardPosMask hl h0
    have hp := hl ▸ RawKeyPositions.lt_length_of_isSet hpos
    have hchild := hr.children (d + 1) (by omega) S hS hcard (hst.fn hcard) _ hp keyPart
    have hsplit := RawKeyPositions.diagonal_split hset hl hpos keyPart
    have hcount := RawKeyPositions.count_subRawKeyPositions hpos
    have hsub := RawKeyPositions.length_subRawKeyPositions hpos
    rw [if_neg hs, hn]
    simp only [Option.bind_eq_bind, Option.bind_some]
    rw [resolve_spec hrep (by omega) hp keyPart hchild hF
      fun h => hF.split hS hcard hp (by omega) h, Nat.add_sub_cancel, hsplit]
    rcases (split S (n.minCardPosMask (d + 1) mask) keyPart).eq_empty_or_nonempty with hempty | hne'
    · rw [hempty, HypertrieTrait.ident_empty, if_pos (by simp [RawIdentifier.isEmpty]),
        RawKeyPositions.diagonal_empty]
      exact Ensures.pure (.empty (by omega))
    have hSF : F d (split S (n.minCardPosMask (d + 1) mask) keyPart) :=
      hF.split hS hcard hp (by omega) hne'
    have hseed := hF.ident_ne_seed hSF hne'
    rw [if_neg (by simpa [RawIdentifier.isEmpty] using hseed)]
    by_cases h1 : mask.count = 1
    · rw [if_pos h1, RawKeyPositions.diagonal_of_count_zero (by omega), h1, Nat.add_sub_cancel]
      exact Ensures.pure ⟨by omega, rfl, Or.inl ⟨fun _ => hSF, hchild⟩⟩
    · rw [if_neg h1, show d + 1 - mask.count =
        d - (mask.subRawKeyPositions (n.minCardPosMask (d + 1) mask)).count by omega]
      exact ih hSF hne' hchild (by omega) (by omega) (by omega)

omit [DecidableEq K] in
theorem fixedKey_sliceKey (h : mask.count = mask.length) :
    (mask.sliceKey keyPart).fixedKey = List.replicate mask.length keyPart := by
  apply List.eq_replicate_iff.mpr
  refine ⟨by simp [SliceKey.fixedKey], fun part hpart => ?_⟩
  obtain ⟨item, hitem, rfl⟩ := List.mem_map.mp hpart
  obtain ⟨isSet, hmem, rfl⟩ := List.mem_map.mp hitem
  obtain rfl : isSet = true := List.countP_eq_length.mp h isSet hmem
  rfl

/-- A diagonal slice of a node filters its entries and projects the diagonal positions away. -/
theorem diagonalSlice_spec (hr : Readable t F ns) (hd : 0 < d) (hset : IsEntrySet t d S)
    (hS : Held t F ns d S) (hl : mask.length = d) (keyPart : K) :
    Ensures (RawHypertrieContext.diagonalSlice t ns d (t.ident d S) mask keyPart)
      (SliceResult.DiagonalHolds t F ns (d - mask.count) (mask.diagonal S keyPart)) := by
  have hle := mask.count_le
  rw [RawHypertrieContext.diagonalSlice]
  by_cases h0 : mask.count = 0
  · rw [if_pos h0, RawKeyPositions.diagonal_of_count_zero h0, h0, Nat.sub_zero]
    exact Ensures.pure ⟨hd, rfl, hS⟩
  rw [if_neg h0]
  by_cases hall : d = mask.count
  · rw [if_pos hall]
    refine Ensures.map ((get_of_held hr hd hset hS (List.length_replicate ..)).mono fun v hv => ?_)
    refine ⟨by omega, valueAt_sliceSet (fun e he => ?_) (by simp; omega) ?_⟩
    · rw [hset.length e he, RawKeyPositions.length_sliceKey, hl]
    · rw [fixedKey_sliceKey (by omega), hl]
      exact hv
  · rw [if_neg hall]
    rcases S.eq_empty_or_nonempty with rfl | hne
    · rw [HypertrieTrait.ident_empty, if_pos (by simp [RawIdentifier.isEmpty])]
      exact Ensures.pure (.empty (by omega))
    rcases hS with ⟨hF, hst⟩ | ⟨hp, -⟩
    · have hseed := hr.inPlay.ident_ne_seed (hF hne) hne
      rw [if_neg (by simpa [RawIdentifier.isEmpty] using hseed)]
      exact diagonalSliceRek_spec hr (hF hne) hne hst hl (by omega) (by omega)
    · -- an entry in place has one position, so all or none are fixed
      have := (HypertrieTrait.inPlaceNode_iff.mp hp).2.2
      omega

end Spec

end Hypertrie
