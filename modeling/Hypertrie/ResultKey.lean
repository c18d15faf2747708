import Mathlib

/-! Keys of results, and the positions in them that belong to a set of labels. -/

namespace Hypertrie

variable {L K : Type} [DecidableEq L]

/-- The key with the values of the labels in `U`. -/
def fill (U : Finset L) (result : List L) (key : List K) (σ : L → K) : List K :=
  List.zipWith (fun label keyPart => if label ∈ U then σ label else keyPart) result key

/-- Writes the parts of a key to positions of another one. -/
def writeKey (poss : List Nat) (sink source : List K) : List K :=
  (poss.zip source).foldl (fun key p => key.set p.1 p.2) sink

/-- The positions of the labels in `U`. -/
def resultPoss (U : Finset L) (result : List L) : List Nat :=
  (List.range result.length).filter (fun pos => result[pos]?.any (· ∈ U))

/-- The keys differ at most where labels of `U` are. -/
structure Agree (U : Finset L) (result : List L) (key key' : List K) : Prop where
  length : key.length = key'.length
  fill : ∀ σ, fill U result key σ = fill U result key' σ

variable {U V : Finset L} {result : List L} {key key' key'' : List K} {σ τ : L → K}

@[simp]
theorem length_fill (h : key.length = result.length) : (fill U result key σ).length = result.length := by
  simp [fill, h]

theorem fill_cons (U : Finset L) (label : L) (keyPart : K) :
    fill U (label :: result) (keyPart :: key) σ =
      (if label ∈ U then σ label else keyPart) :: fill U result key σ := rfl

theorem fill_fill (U V : Finset L) (result : List L) (key : List K) (σ : L → K) :
    fill U result (fill V result key σ) σ = fill (U ∪ V) result key σ := by
  induction result generalizing key with
  | nil => rfl
  | cons label result ih =>
    cases key with
    | nil => rfl
    | cons keyPart key =>
      rw [fill_cons, fill_cons, fill_cons, ih]
      by_cases hu : label ∈ U
      · simp [hu]
      · by_cases hv : label ∈ V <;> simp [hu, hv]

/-- Values that are written over do not matter. -/
theorem fill_of_subset (h : V ⊆ U) (result : List L) (key : List K) (σ τ : L → K) :
    fill U result (fill V result key τ) σ = fill U result key σ := by
  induction result generalizing key with
  | nil => rfl
  | cons label result ih =>
    cases key with
    | nil => rfl
    | cons keyPart key =>
      rw [fill_cons, fill_cons, fill_cons, ih]
      by_cases hv : label ∈ V
      · simp [h hv]
      · simp [hv]

theorem fill_congr (h : ∀ l ∈ result, l ∈ U → σ l = τ l) : fill U result key σ = fill U result key τ := by
  induction result generalizing key with
  | nil => rfl
  | cons label result ih =>
    cases key with
    | nil => rfl
    | cons keyPart key =>
      rw [fill_cons, fill_cons, ih fun l hl => h l (List.mem_cons_of_mem _ hl)]
      by_cases hu : label ∈ U
      · rw [if_pos hu, if_pos hu, h label List.mem_cons_self hu]
      · rw [if_neg hu, if_neg hu]

/-- Without a label of `U` in the result, nothing is written. -/
theorem fill_eq_self (hl : key.length = result.length) (h : ∀ l ∈ result, l ∉ U) :
    fill U result key σ = key := by
  induction result generalizing key with
  | nil => exact (List.length_eq_zero_iff.mp hl).symm
  | cons label result ih =>
    cases key with
    | nil => cases hl
    | cons keyPart key =>
      rw [fill_cons, if_neg (h label List.mem_cons_self),
        ih (by simpa using hl) fun l hm => h l (List.mem_cons_of_mem _ hm)]

/-- If all labels are in `U`, the key is overwritten. -/
theorem fill_all (hl : key.length = result.length) (h : ∀ l ∈ result, l ∈ U) :
    fill U result key σ = result.map σ := by
  induction result generalizing key with
  | nil => rfl
  | cons label result ih =>
    cases key with
    | nil => cases hl
    | cons keyPart key =>
      rw [fill_cons, if_pos (h label List.mem_cons_self),
        ih (by simpa using hl) fun l hm => h l (List.mem_cons_of_mem _ hm)]
      rfl

theorem fill_set {pos : Nat} {label : L} (h : result[pos]? = some label) (hu : label ∈ U) (v : K) :
    fill U result (key.set pos v) σ = fill U result key σ := by
  induction result generalizing key pos with
  | nil => cases h
  | cons l result ih =>
    cases key with
    | nil => rfl
    | cons keyPart key =>
      cases pos with
      | zero =>
        obtain rfl := Option.some.inj h
        rw [List.set_cons_zero, fill_cons, fill_cons, if_pos hu, if_pos hu]
      | succ pos =>
        rw [List.set_cons_succ, fill_cons, fill_cons, ih h]

theorem fill_erase_of_not_mem {x : L} (hx : x ∉ result) :
    fill (U.erase x) result key σ = fill U result key σ := by
  induction result generalizing key with
  | nil => rfl
  | cons label result ih =>
    cases key with
    | nil => rfl
    | cons keyPart key =>
      have hne : label ≠ x := fun h => hx (h ▸ List.mem_cons_self)
      rw [fill_cons, fill_cons, ih fun hm => hx (List.mem_cons_of_mem _ hm)]
      simp only [Finset.mem_erase, hne, ne_eq, not_false_eq_true, true_and]

/-- Instead of binding a label, its value may be written to the key. -/
theorem fill_update {x : L} (hx : x ∈ U) (hn : result.Nodup) (hl : key.length = result.length) (k : K)
    (σ : L → K) : fill U result key (Function.update σ x k) =
      fill (U.erase x) result (if x ∈ result then key.set (result.idxOf x) k else key) σ := by
  have hnot (result : List L) (key : List K) (hm : x ∉ result) :
      fill U result key (Function.update σ x k) = fill (U.erase x) result key σ := by
    rw [fill_erase_of_not_mem hm]
    refine fill_congr fun l hl _ => Function.update_of_ne ?_ _ _
    rintro rfl
    exact hm hl
  induction result generalizing key with
  | nil => exact hnot [] key List.not_mem_nil
  | cons label result ih =>
    obtain ⟨hlabel, hn⟩ := List.nodup_cons.mp hn
    cases key with
    | nil => cases hl
    | cons keyPart key =>
      by_cases hlx : label = x
      · subst hlx
        rw [if_pos List.mem_cons_self, List.idxOf_cons_self, List.set_cons_zero, fill_cons, fill_cons,
          hnot result key hlabel, if_pos hx, if_neg (Finset.notMem_erase _ U), Function.update_self]
      · have ih := ih hn (show key.length = result.length by simpa using hl)
        have hmem : x ∈ label :: result ↔ x ∈ result := by
          rw [List.mem_cons]
          exact or_iff_right (Ne.symm hlx)
        have hhead : (if label ∈ U then Function.update σ x k label else keyPart) =
            if label ∈ U.erase x then σ label else keyPart := by
          simp only [Finset.mem_erase, hlx, ne_eq, not_false_eq_true, true_and,
            Function.update_of_ne hlx]
        rw [fill_cons, ih, hhead]
        by_cases hm : x ∈ result
        · rw [if_pos hm, if_pos (hmem.mpr hm), List.idxOf_cons_ne _ hlx, List.set_cons_succ, fill_cons]
        · rw [if_neg hm, if_neg fun h => hm (hmem.mp h), fill_cons]

theorem resultPoss_cons (U : Finset L) (label : L) (result : List L) :
    resultPoss U (label :: result) = if label ∈ U then 0 :: (resultPoss U result).map (· + 1)
      else (resultPoss U result).map (· + 1) := by
  rw [resultPoss, List.length_cons, List.range_succ_eq_map, List.filter_cons, List.filter_map]
  by_cases hu : label ∈ U
  · simp only [List.getElem?_cons_zero, Option.any_some, hu, decide_true, if_true]
    rfl
  · simp only [List.getElem?_cons_zero, Option.any_some, hu, decide_false, if_false,
      Bool.false_eq_true]
    rfl

theorem writeKey_map_succ (poss : List Nat) (keyPart : K) (key source : List K) :
    writeKey (poss.map (· + 1)) (keyPart :: key) source = keyPart :: writeKey poss key source := by
  induction poss generalizing key source with
  | nil => rfl
  | cons pos poss ih =>
    cases source with
    | nil => rfl
    | cons part source => exact ih (key.set pos part) source

/-- Writing the values of labels to the positions of these labels. -/
theorem writeKey_resultPoss (U : Finset L) (result : List L) (key : List K) (σ : L → K)
    (hl : key.length = result.length) :
    writeKey (resultPoss U result) key ((result.filter (· ∈ U)).map σ) = fill U result key σ := by
  induction result generalizing key with
  | nil => exact List.length_eq_zero_iff.mp hl
  | cons label result ih =>
    cases key with
    | nil => cases hl
    | cons keyPart key =>
      have hl : key.length = result.length := by simpa using hl
      rw [resultPoss_cons, fill_cons, ← ih key hl]
      by_cases hu : label ∈ U
      · rw [if_pos hu, if_pos hu, List.filter_cons_of_pos (by simpa using hu), List.map_cons]
        exact writeKey_map_succ _ (σ label) key _
      · rw [if_neg hu, if_neg hu, List.filter_cons_of_neg (by simpa using hu)]
        exact writeKey_map_succ _ keyPart key _

theorem mem_resultPoss {pos : Nat} : pos ∈ resultPoss U result ↔ ∃ l ∈ U, result[pos]? = some l := by
  rw [resultPoss, List.mem_filter, List.mem_range]
  constructor
  · rintro ⟨-, hany⟩
    cases hl : result[pos]? with
    | none =>
      rw [hl] at hany
      cases hany
    | some l =>
      rw [hl] at hany
      exact ⟨l, of_decide_eq_true hany, rfl⟩
  · rintro ⟨l, hu, hl⟩
    refine ⟨(List.getElem?_eq_some_iff.mp hl).1, ?_⟩
    rw [hl]
    exact decide_eq_true hu

namespace Agree

theorem refl (U : Finset L) (result : List L) (key : List K) : Agree U result key key :=
  ⟨rfl, fun _ => rfl⟩

theorem trans (h : Agree U result key key') (h' : Agree U result key' key'') :
    Agree U result key key'' :=
  ⟨h.length.trans h'.length, fun σ => (h.fill σ).trans (h'.fill σ)⟩

theorem mono (h : Agree V result key key') (hs : V ⊆ U) : Agree U result key key' := by
  refine ⟨h.length, fun σ => ?_⟩
  rw [← fill_of_subset hs result key σ σ, h.fill σ, fill_of_subset hs result key' σ σ]

theorem set {pos : Nat} {label : L} (h : result[pos]? = some label) (hu : label ∈ U) (v : K) :
    Agree U result (key.set pos v) key :=
  ⟨List.length_set, fun _ => fill_set h hu v⟩

/-- Writing to positions of `U`. -/
theorem writeKey {poss : List Nat} (h : ∀ pos ∈ poss, pos ∈ resultPoss U result) (key source : List K) :
    Agree U result (writeKey poss key source) key := by
  induction poss generalizing key source with
  | nil => exact refl U result key
  | cons pos poss ih =>
    cases source with
    | nil => exact refl U result key
    | cons part source =>
      obtain ⟨l, hu, hl⟩ := mem_resultPoss.mp (h pos List.mem_cons_self)
      exact (ih (fun p hp => h p (List.mem_cons_of_mem _ hp)) _ source).trans (.set hl hu part)

theorem resultPoss_subset (h : V ⊆ U) : ∀ pos ∈ resultPoss V result, pos ∈ resultPoss U result := by
  intro pos hpos
  obtain ⟨l, hv, hl⟩ := mem_resultPoss.mp hpos
  exact mem_resultPoss.mpr ⟨l, h hv, hl⟩

end Agree

end Hypertrie
