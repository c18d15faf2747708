import Mathlib.Order.Defs.Unbundled
import Hypertrie.Library.Ensures

/-! Sorting several vectors in the same way. The permutation is sorted by the
sizes of the operands and then applied along its cycles by swapping elements. -/

namespace Hypertrie

/-- `std::sort`, of which all that matters is that it returns its input in some order. -/
structure StdSort where
  sort : (Nat → Nat → Bool) → List Nat → List Nat
  perm : ∀ lt l, (sort lt l).Perm l

/-- A merge sort. -/
def StdSort.merge : StdSort :=
  ⟨fun lt l => l.mergeSort (fun i j => !lt j i), fun _ l => List.mergeSort_perm l _⟩

/-- `std::sort` with its order: elements are compared by a number each of them has. -/
structure OrderedStdSort extends StdSort where
  sorted : ∀ (size : Nat → Nat) l,
    (sort (fun i j => decide (size i < size j)) l).Pairwise (fun i j => size i ≤ size j)

def OrderedStdSort.merge : OrderedStdSort where
  toStdSort := .merge
  sorted size l := by
    have hsorted := @List.pairwise_mergeSort _ (fun i j => !decide (size j < size i))
      (fun a b c hab hbc => by
        simp only [Bool.not_eq_true', decide_eq_false_iff_not, not_lt] at hab hbc ⊢
        exact hab.trans hbc)
      (fun a b => by
        simp only [Bool.or_eq_true, Bool.not_eq_true', decide_eq_false_iff_not, not_lt]
        exact (le_total (size b) (size a)).symm) l
    exact hsorted.imp fun h => by simpa using h

/-- An insertion sort. -/
def OrderedStdSort.insertion : OrderedStdSort where
  sort lt l := l.insertionSort (fun i j => !lt j i)
  perm _ l := List.perm_insertionSort _ l
  sorted size l := by
    have : Std.Total fun i j => (!decide (size j < size i)) = true :=
      ⟨fun i j => by simpa using le_total (size i) (size j)⟩
    have : IsTrans Nat fun i j => (!decide (size j < size i)) = true :=
      ⟨fun i j k hij hjk => by simpa using le_trans (by simpa using hij) (by simpa using hjk)⟩
    have hsorted := List.pairwise_insertionSort (fun i j => (!decide (size j < size i)) = true) l
    exact hsorted.imp fun h => by simpa using h

/-- With a strict weak order, "not greater" is transitive. -/
theorem not_lt_trans {α : Type} {lt : α → α → Bool}
    (hlt : IsStrictWeakOrder α (fun x y => lt x y = true)) {x y z : α}
    (hyx : ¬lt y x = true) (hzy : ¬lt z y = true) : ¬lt z x = true := by
  intro hzx
  have hxy : ¬lt x y = true := fun hxy => hzy (hlt.trans z x y hzx hxy)
  have hyz : ¬lt y z = true := fun hyz => hyx (hlt.trans y z x hyz hzx)
  exact (hlt.incomp_trans x y z ⟨hxy, hyx⟩ ⟨hyz, hzy⟩).2 hzx

/-- `std::sort` with its order, for all the comparisons it may be called with. -/
structure WeakOrderStdSort extends StdSort where
  sorted : ∀ lt : Nat → Nat → Bool, IsStrictWeakOrder Nat (fun i j => lt i j = true) →
    ∀ l, (sort lt l).Pairwise (fun i j => ¬lt j i = true)

def WeakOrderStdSort.merge : WeakOrderStdSort where
  toStdSort := .merge
  sorted lt hlt l := by
    have hsorted := @List.pairwise_mergeSort _ (fun i j => !lt j i)
      (fun a b c hab hbc => by
        simp only [Bool.not_eq_true', Bool.eq_false_iff] at hab hbc ⊢
        exact not_lt_trans hlt hab hbc)
      (fun a b => by
        simp only [Bool.or_eq_true, Bool.not_eq_true', Bool.eq_false_iff]
        by_cases hba : lt b a = true
        · exact Or.inr fun hab => hlt.irrefl a (hlt.trans a b a hab hba)
        · exact Or.inl hba) l
    exact hsorted.imp fun h => by simpa using h

namespace SortPermutation

/-- `get` at a type with a comparison: the positions of the vector, sorted by what it has there. -/
def getBy {α : Type} [Inhabited α] (std : StdSort) (lt : α → α → Bool) (vec : List α) : List Nat :=
  std.sort (fun i j => lt (vec.getD i default) (vec.getD j default)) (List.range vec.length)

/-- `get`: the positions of the vector, sorted by what it has there. -/
def get (std : StdSort) (sizes : List Nat) : List Nat :=
  std.sort (fun i j => decide (sizes.getD i 0 < sizes.getD j 0)) (List.range sizes.length)

section Apply

variable {α β : Type}

def swap (vec : List α) (i j : Nat) : List α :=
  match vec[i]?, vec[j]? with
  | some x, some y => (vec.set i y).set j x
  | _, _ => vec

/-- The inner loop, until the cycle of `i` is back at `i`. -/
def applyCycle (p : List Nat) (i : Nat) : Nat → Nat → Nat → List α → List Bool →
    Option (List α × List Bool)
  | 0, _, _, _, _ => none
  | fuel + 1, prevJ, j, vec, done =>
    if i = j then some (vec, done)
    else applyCycle p i fuel j (p.getD j 0) (swap vec prevJ j) (done.set j true)

def applyAt (p : List Nat) (st : List α × List Bool) (i : Nat) : Option (List α × List Bool) :=
  if st.2.getD i false then some st
  else applyCycle p i st.1.length i (p.getD i 0) st.1 (st.2.set i true)

def apply (vec : List α) (p : List Nat) : Option (List α) :=
  ((List.range vec.length).foldlM (applyAt p) (vec, List.replicate vec.length false)).map Prod.fst

end Apply

section Spec

variable {α β : Type} {old vec : List α} {p : List Nat} {done : List Bool} {i j n : Nat}

theorem length_swap (vec : List α) (i j : Nat) : (swap vec i j).length = vec.length := by
  unfold swap
  split
  · simp
  · rfl

theorem getElem?_swap (hi : i < vec.length) (hj : j < vec.length) (x : Nat) :
    (swap vec i j)[x]? = if x = j then vec[i]? else if x = i then vec[j]? else vec[x]? := by
  simp only [swap, List.getElem?_eq_getElem hi, List.getElem?_eq_getElem hj, List.getElem?_set,
    List.length_set]
  by_cases hxj : x = j
  · simp [hxj, hj]
  · by_cases hxi : x = i
    · have hij : i ≠ j := hxi ▸ hxj
      simp [hxi, hij, Ne.symm hij, hi]
    · simp [hxj, hxi, Ne.symm hxj, Ne.symm hxi]

/-- A permutation of the positions below `n`. -/
structure IsPermutation (p : List Nat) (n : Nat) : Prop where
  lt : ∀ x < n, p.getD x 0 < n
  inj : ∀ x < n, ∀ y < n, p.getD x 0 = p.getD y 0 → x = y

theorem isPermutation_of_perm (h : p.Perm (List.range n)) : IsPermutation p n := by
  have hlen : p.length = n := by simpa using h.length_eq
  have hnodup : p.Nodup := h.nodup_iff.mpr List.nodup_range
  refine ⟨fun x hx => ?_, fun x hx y hy hxy => ?_⟩
  · rw [List.getD_eq_getElem _ _ (by omega)]
    exact List.mem_range.mp (h.subset (List.getElem_mem _))
  · rw [List.getD_eq_getElem _ _ (by omega), List.getD_eq_getElem _ _ (by omega)] at hxy
    exact (hnodup.getElem_inj_iff).mp hxy

theorem getD_set (hj : j < done.length) (x : Nat) :
    (done.set j true).getD x false = true ↔ x = j ∨ done.getD x false = true := by
  rw [List.getD_eq_getElem?_getD, List.getD_eq_getElem?_getD, List.getElem?_set]
  by_cases hx : j = x
  · simp [hx ▸ hj, hx]
  · simp [hx, Ne.symm hx]

/-- The elements at the positions done are in place; the others have not moved. -/
structure Placed (p : List Nat) (old vec : List α) (done : List Bool) : Prop where
  length : vec.length = old.length
  length_done : done.length = old.length
  moved : ∀ x < old.length, done.getD x false = true → vec[x]? = old[p.getD x 0]?
  kept : ∀ x < old.length, done.getD x false ≠ true → vec[x]? = old[x]?
  image : ∀ y < old.length, done.getD y false = true →
    ∃ x < old.length, done.getD x false = true ∧ p.getD x 0 = y

/-- Inside the cycle of `i`: the element of `i` has moved to `prevJ`, where it does not stay. -/
structure Cycling (p : List Nat) (old vec : List α) (done : List Bool) (i prevJ : Nat) : Prop where
  length : vec.length = old.length
  length_done : done.length = old.length
  prev : prevJ < old.length ∧ done.getD prevJ false = true
  hole : vec[prevJ]? = old[i]?
  moved : ∀ x < old.length, done.getD x false = true → x ≠ prevJ → vec[x]? = old[p.getD x 0]?
  kept : ∀ x < old.length, done.getD x false ≠ true → vec[x]? = old[x]?
  image : ∀ y < old.length, done.getD y false = true → y ≠ i →
    ∃ x < old.length, x ≠ prevJ ∧ done.getD x false = true ∧ p.getD x 0 = y

variable {prevJ : Nat}

theorem Cycling.start (hp : Placed p old vec done) (hi : i < old.length)
    (hnot : done.getD i false ≠ true) : Cycling p old vec (done.set i true) i i := by
  have hid : i < done.length := hp.length_done ▸ hi
  refine ⟨hp.length, by simpa using hp.length_done, ⟨hi, (getD_set hid i).mpr (Or.inl rfl)⟩,
    hp.kept i hi hnot, fun x hx hd hne => ?_, fun x hx hd => ?_, fun y hy hd hne => ?_⟩
  · exact hp.moved x hx (((getD_set hid x).mp hd).resolve_left hne)
  · exact hp.kept x hx fun h => hd ((getD_set hid x).mpr (Or.inr h))
  · obtain ⟨x, hx, hdx, hpx⟩ := hp.image y hy (((getD_set hid y).mp hd).resolve_left hne)
    refine ⟨x, hx, fun he => hnot (he ▸ hdx), (getD_set hid x).mpr (Or.inr hdx), hpx⟩

theorem Cycling.finish (hc : Cycling p old vec done i prevJ) (hj : i = p.getD prevJ 0) :
    Placed p old vec done := by
  refine ⟨hc.length, hc.length_done, fun x hx hd => ?_, hc.kept, fun y hy hd => ?_⟩
  · by_cases hne : x = prevJ
    · rw [hne, hc.hole, hj]
    · exact hc.moved x hx hd hne
  · by_cases hne : y = i
    · exact ⟨prevJ, hc.prev.1, hc.prev.2, hne ▸ hj.symm⟩
    · obtain ⟨x, hx, -, hdx, hpx⟩ := hc.image y hy hd hne
      exact ⟨x, hx, hdx, hpx⟩

/-- The cycle does not run into a position that is done, other than the one it started from. -/
theorem Cycling.next_not_done (hc : Cycling p old vec done i prevJ)
    (hperm : IsPermutation p old.length) (hj : i ≠ p.getD prevJ 0) :
    done.getD (p.getD prevJ 0) false ≠ true := by
  intro hd
  obtain ⟨x, hx, hne, -, hpx⟩ := hc.image _ (hperm.lt _ hc.prev.1) hd (Ne.symm hj)
  exact hne (hperm.inj x hx prevJ hc.prev.1 hpx)

theorem Cycling.step (hc : Cycling p old vec done i prevJ) (hperm : IsPermutation p old.length)
    (hj : i ≠ p.getD prevJ 0) : Cycling p old (swap vec prevJ (p.getD prevJ 0))
      (done.set (p.getD prevJ 0) true) i (p.getD prevJ 0) := by
  have hnot := hc.next_not_done hperm hj
  have hlt := hperm.lt _ hc.prev.1
  have hld : p.getD prevJ 0 < done.length := hc.length_done ▸ hlt
  have hlv : p.getD prevJ 0 < vec.length := hc.length ▸ hlt
  have hne : prevJ ≠ p.getD prevJ 0 := fun he => hnot (he ▸ hc.prev.2)
  have hprev : prevJ < vec.length := hc.length ▸ hc.prev.1
  have hget := getElem?_swap hprev hlv
  refine ⟨(length_swap ..).trans hc.length, by simpa using hc.length_done,
    ⟨hlt, (getD_set hld _).mpr (Or.inl rfl)⟩, ?_, fun x hx hd hx' => ?_, fun x hx hd => ?_,
    fun y hy hd hyi => ?_⟩
  · rw [hget, if_pos rfl, hc.hole]
  · rw [hget, if_neg hx']
    by_cases hxp : x = prevJ
    · rw [if_pos hxp, hc.kept _ hlt hnot, hxp]
    · rw [if_neg hxp]
      exact hc.moved x hx (((getD_set hld x).mp hd).resolve_left hx') hxp
  · have hxj : x ≠ p.getD prevJ 0 := fun he => hd ((getD_set hld x).mpr (Or.inl he))
    have hdx : done.getD x false ≠ true := fun h => hd ((getD_set hld x).mpr (Or.inr h))
    have hxp : x ≠ prevJ := fun he => hdx (he ▸ hc.prev.2)
    rw [hget, if_neg hxj, if_neg hxp]
    exact hc.kept x hx hdx
  · rcases (getD_set hld y).mp hd with rfl | hdy
    · exact ⟨prevJ, hc.prev.1, hne, (getD_set hld _).mpr (Or.inr hc.prev.2), rfl⟩
    · obtain ⟨x, hx, -, hdx, hpx⟩ := hc.image y hy hdy hyi
      exact ⟨x, hx, fun he => hnot (he ▸ hdx), (getD_set hld x).mpr (Or.inr hdx), hpx⟩

/-- Every step of the cycle marks another position, so the loop ends. -/
theorem applyCycle_spec (hperm : IsPermutation p old.length) {fuel : Nat}
    (hc : Cycling p old vec done i prevJ) (hfuel : done.count false < fuel) :
    Ensures (applyCycle p i fuel prevJ (p.getD prevJ 0) vec done) (fun st =>
      Placed p old st.1 st.2 ∧ ∀ x, done.getD x false = true → st.2.getD x false = true) := by
  induction fuel generalizing vec done prevJ with
  | zero => exact absurd hfuel (Nat.not_lt_zero _)
  | succ fuel ih =>
    rw [applyCycle]
    by_cases hj : i = p.getD prevJ 0
    · rw [if_pos hj]
      exact Ensures.pure ⟨hc.finish hj, fun _ h => h⟩
    · rw [if_neg hj]
      have hnot := hc.next_not_done hperm hj
      have hld : p.getD prevJ 0 < done.length := hc.length_done ▸ hperm.lt _ hc.prev.1
      have hcount : (done.set (p.getD prevJ 0) true).count false < fuel := by
        rw [List.getD_eq_getElem _ _ hld] at hnot
        have hfalse : done[p.getD prevJ 0] = false := by simpa using hnot
        have hpos : 0 < done.count false :=
          List.count_pos_iff.mpr (hfalse ▸ List.getElem_mem hld)
        have hset := List.count_set (a := true) (b := false) hld
        rw [hfalse, if_pos (by decide), if_neg (by decide)] at hset
        omega
      refine (ih (hc.step hperm hj) hcount).mono fun st hst => ⟨hst.1, fun x hx => ?_⟩
      exact hst.2 x ((getD_set hld x).mpr (Or.inr hx))

theorem applyAt_spec (hperm : IsPermutation p old.length) {st : List α × List Bool}
    (hp : Placed p old st.1 st.2) (hi : i < old.length) : Ensures (applyAt p st i) (fun st' =>
      Placed p old st'.1 st'.2 ∧ st'.2.getD i false = true ∧
      ∀ x, st.2.getD x false = true → st'.2.getD x false = true) := by
  rw [applyAt]
  by_cases hd : st.2.getD i false = true
  · rw [if_pos hd]
    exact Ensures.pure ⟨hp, hd, fun _ h => h⟩
  · rw [if_neg hd]
    have hid : i < st.2.length := hp.length_done ▸ hi
    have hset := fun x => getD_set hid x
    have hlt : (st.2.set i true).count false < st.1.length := by
      have hmem : true ∈ st.2.set i true := List.mem_set hid true
      have hne : (st.2.set i true).count false ≠ (st.2.set i true).length := fun h => by
        have := List.count_eq_length.mp h true hmem
        cases this
      have hle := List.count_le_length (a := false) (l := st.2.set i true)
      rw [List.length_set, hp.length_done, ← hp.length] at hle hne
      omega
    refine (applyCycle_spec hperm (Cycling.start hp hi hd) hlt).mono fun st' hst => ?_
    exact ⟨hst.1, hst.2 i ((hset i).mpr (Or.inl rfl)), fun x hx => hst.2 x ((hset x).mpr (Or.inr hx))⟩

theorem getElem?_filterMap {f : β → Option α} {l : List β} (h : ∀ y ∈ l, (f y).isSome = true)
    (x : Nat) : (l.filterMap f)[x]? = l[x]?.bind f := by
  induction l generalizing x with
  | nil => rfl
  | cons y l ih =>
    obtain ⟨a, ha⟩ := Option.isSome_iff_exists.mp (h y List.mem_cons_self)
    rw [List.filterMap_cons_some ha]
    cases x with
    | zero => simp [ha]
    | succ x => simpa using ih (fun y' hy' => h y' (List.mem_cons_of_mem _ hy')) x

/-- Applying a permutation puts the element of `p[x]` at `x`. -/
theorem apply_eq (hperm : p.Perm (List.range old.length)) :
    apply old p = some (p.filterMap (old[·]?)) := by
  have hlen : p.length = old.length := by simpa using hperm.length_eq
  have hp := isPermutation_of_perm hperm
  have hfold := Ensures.foldlM (f := applyAt p) (l := List.range old.length)
    (s := (old, List.replicate old.length false))
    (I := fun rest st => (∀ x ∈ rest, x < old.length) ∧ Placed p old st.1 st.2 ∧
      ∀ x < old.length, x ∉ rest → st.2.getD x false = true)
    ⟨fun x hx => List.mem_range.mp hx,
      ⟨rfl, by simp, fun x hx h => by simp [List.getD_eq_getElem?_getD, hx] at h, fun x hx h => rfl,
        fun y hy h => by simp [List.getD_eq_getElem?_getD, hy] at h⟩,
      fun x hx h => absurd (List.mem_range.mpr hx) h⟩ (by
      rintro i rest st ⟨hlt, hst, hdone⟩
      refine (applyAt_spec hp hst (hlt i List.mem_cons_self)).mono ?_
      rintro st' ⟨hst', hi, hkeep⟩
      refine ⟨fun x hx => hlt x (List.mem_cons_of_mem _ hx), hst', fun x hx hrest => ?_⟩
      by_cases hxi : x = i
      · rw [hxi]
        exact hi
      · exact hkeep x (hdone x hx fun hm => (List.mem_cons.mp hm).elim hxi hrest))
  obtain ⟨st, hst, -, hplaced, hall⟩ := hfold
  rw [apply, hst, Option.map_some, Option.some.injEq]
  apply List.ext_getElem?
  intro x
  rw [getElem?_filterMap (fun y hy => by
    rw [List.getElem?_eq_getElem (List.mem_range.mp (hperm.subset hy))]
    rfl)]
  by_cases hx : x < old.length
  · have hxp : x < p.length := hlen ▸ hx
    rw [hplaced.moved x hx (hall x hx (by simp)), List.getElem?_eq_getElem hxp,
      List.getD_eq_getElem _ _ hxp]
    rfl
  · rw [List.getElem?_eq_none (hplaced.length ▸ Nat.le_of_not_lt hx),
      List.getElem?_eq_none (hlen ▸ Nat.le_of_not_lt hx)]
    rfl

/-- What is applied to all vectors is the same list of positions, so related vectors stay related. -/
theorem forall₂_filterMap {R : α → β → Prop} {l : List α} {l' : List β} (h : List.Forall₂ R l l')
    (p : List Nat) : List.Forall₂ R (p.filterMap (l[·]?)) (p.filterMap (l'[·]?)) := by
  induction p with
  | nil => exact List.Forall₂.nil
  | cons x p ih =>
    have hlen := h.length_eq
    by_cases hx : x < l.length
    · have hx' : x < l'.length := hlen ▸ hx
      rw [List.filterMap_cons_some (List.getElem?_eq_getElem hx),
        List.filterMap_cons_some (List.getElem?_eq_getElem hx')]
      exact List.Forall₂.cons (List.forall₂_iff_get.mp h |>.2 x hx hx') ih
    · rw [List.filterMap_cons_none (List.getElem?_eq_none (Nat.le_of_not_lt hx)),
        List.filterMap_cons_none (List.getElem?_eq_none (hlen ▸ Nat.le_of_not_lt hx))]
      exact ih

theorem map_filterMap (l : List α) (f : α → β) (p : List Nat) :
    p.filterMap ((l.map f)[·]?) = (p.filterMap (l[·]?)).map f := by
  rw [List.map_filterMap]
  apply List.filterMap_congr
  intro x _
  exact List.getElem?_map ..

theorem filterMap_range (l : List α) : (List.range l.length).filterMap (l[·]?) = l := by
  apply List.ext_getElem?
  intro x
  rw [getElem?_filterMap (fun y hy => by
    rw [List.getElem?_eq_getElem (List.mem_range.mp hy)]
    rfl)]
  by_cases hx : x < l.length
  · rw [List.getElem?_range hx]
    rfl
  · rw [List.getElem?_eq_none (by simpa using hx), List.getElem?_eq_none (by simpa using hx)]
    rfl

theorem perm_filterMap {l : List α} (h : p.Perm (List.range l.length)) :
    (p.filterMap (l[·]?)).Perm l := by
  exact (h.filterMap _).trans (List.Perm.of_eq (filterMap_range l))

theorem apply_range (l : List α) : apply l (List.range l.length) = some l := by
  rw [apply_eq (List.Perm.refl _), filterMap_range]

/-- What is sorted already stays as it is. -/
theorem get_of_pairwise_lt (std : OrderedStdSort) {sizes : List Nat}
    (h : sizes.Pairwise (· < ·)) : get std.toStdSort sizes = List.range sizes.length := by
  have hperm : (get std.toStdSort sizes).Perm (List.range sizes.length) := std.perm _ _
  have hmono : ∀ i j, i < j → j < sizes.length → sizes.getD i 0 < sizes.getD j 0 := by
    intro i j hij hj
    rw [List.getD_eq_getElem _ _ (hij.trans hj), List.getD_eq_getElem _ _ hj]
    exact List.pairwise_iff_getElem.mp h i j _ _ hij
  refine @List.Perm.eq_of_pairwise _ (fun i j => sizes.getD i 0 ≤ sizes.getD j 0) _ _ ?_
    (std.sorted _ _) ?_ hperm
  · intro i j hi hj hij hji
    have hi := List.mem_range.mp (hperm.subset hi)
    have hj := List.mem_range.mp hj
    rcases Nat.lt_trichotomy i j with hlt | rfl | hlt
    · exact absurd hji (hmono i j hlt hj).not_ge
    · rfl
    · exact absurd hij (hmono j i hlt hi).not_ge
  · apply List.pairwise_lt_range.imp_of_mem
    intro i j _ hj hij
    exact (hmono i j hij (List.mem_range.mp hj)).le

theorem getElem?_apply (hperm : p.Perm (List.range old.length)) {x : Nat} (hx : x < old.length) :
    (p.filterMap (old[·]?))[x]? = old[p.getD x 0]? := by
  have hlen : p.length = old.length := by simpa using hperm.length_eq
  rw [getElem?_filterMap (fun y hy => by
    rw [List.getElem?_eq_getElem (List.mem_range.mp (hperm.subset hy))]
    rfl), List.getElem?_eq_getElem (hlen ▸ hx), List.getD_eq_getElem _ _ (hlen ▸ hx)]
  rfl

theorem zip_filterMap {l : List α} {l' : List β} (h : l.length = l'.length) (p : List Nat) :
    p.filterMap ((l.zip l')[·]?) = (p.filterMap (l[·]?)).zip (p.filterMap (l'[·]?)) := by
  induction p with
  | nil => rfl
  | cons x p ih =>
    by_cases hx : x < l.length
    · have hx' : x < l'.length := h ▸ hx
      have hz : x < (l.zip l').length := by simp [hx, hx']
      rw [List.filterMap_cons_some (List.getElem?_eq_getElem hx),
        List.filterMap_cons_some (List.getElem?_eq_getElem hx'),
        List.filterMap_cons_some (List.getElem?_eq_getElem hz), List.zip_cons_cons,
        List.getElem_zip, ih]
    · have hx' : l'.length ≤ x := by omega
      have hz : (l.zip l').length ≤ x := by
        rw [List.length_zip]
        omega
      rw [List.filterMap_cons_none (List.getElem?_eq_none (Nat.le_of_not_lt hx)),
        List.filterMap_cons_none (List.getElem?_eq_none hx'),
        List.filterMap_cons_none (List.getElem?_eq_none hz), ih]

section Sorted

variable [Inhabited α] {lt : α → α → Bool}

theorem getBy_perm (std : StdSort) (lt : α → α → Bool) (vec : List α) :
    (getBy std lt vec).Perm (List.range vec.length) :=
  std.perm _ _

theorem filterMap_eq_map_getD {l : List α} {p : List Nat} (h : ∀ x ∈ p, x < l.length) :
    p.filterMap (l[·]?) = p.map (l.getD · default) := by
  induction p with
  | nil => rfl
  | cons x p ih =>
    have hx := h x List.mem_cons_self
    rw [List.filterMap_cons_some (List.getElem?_eq_getElem hx), List.map_cons,
      List.getD_eq_getElem _ _ hx, ih fun y hy => h y (List.mem_cons_of_mem _ hy)]

/-- In the order of `getBy` the vector is sorted. -/
theorem pairwise_getBy (std : WeakOrderStdSort)
    (hlt : IsStrictWeakOrder α (fun x y => lt x y = true)) (vec : List α) :
    ((getBy std.toStdSort lt vec).filterMap (vec[·]?)).Pairwise (fun x y => ¬lt y x = true) := by
  have hmem : ∀ x ∈ getBy std.toStdSort lt vec, x < vec.length := fun x hx =>
    List.mem_range.mp ((getBy_perm std.toStdSort lt vec).subset hx)
  have hindex : IsStrictWeakOrder Nat
      (fun i j => lt (vec.getD i default) (vec.getD j default) = true) :=
    { irrefl := fun i => hlt.irrefl _
      trans := fun i j k => hlt.trans _ _ _
      incomp_trans := fun i j k => hlt.incomp_trans _ _ _ }
  rw [filterMap_eq_map_getD hmem, List.pairwise_map]
  exact std.sorted _ hindex _

end Sorted

/-- The loop ends with the element of `p[x]` at `x`; with the permutation of `getBy` the vector is
sorted, and a parallel vector that is treated in the same way stays parallel. -/
theorem apply_sorts {α β : Type} [Inhabited α] (std : WeakOrderStdSort) {lt : α → α → Bool}
    (hlt : IsStrictWeakOrder α (fun x y => lt x y = true)) {vec : List α} {p : List Nat}
    (hp : p.Perm (List.range vec.length)) {parallel : List β}
    (hlen : vec.length = parallel.length) :
    (∃ vec', apply vec p = some vec' ∧ vec'.length = vec.length ∧
      ∀ x < vec.length, vec'[x]? = vec[p.getD x 0]?) ∧
    (getBy std.toStdSort lt vec).Perm (List.range vec.length) ∧
    (∃ vec', apply vec (getBy std.toStdSort lt vec) = some vec' ∧ vec'.Perm vec ∧
      vec'.Pairwise (fun x y => ¬lt y x = true)) ∧
    (∃ vec' parallel', apply vec p = some vec' ∧ apply parallel p = some parallel' ∧
      parallel'.length = vec'.length ∧
      apply (vec.zip parallel) p = some (vec'.zip parallel')) := by
  have hget := getBy_perm std.toStdSort lt vec
  have hvec := apply_eq hp
  have hlength : (p.filterMap (vec[·]?)).length = vec.length := (perm_filterMap hp).length_eq
  have hpar : p.Perm (List.range parallel.length) := hlen ▸ hp
  have hzip : p.Perm (List.range (vec.zip parallel).length) := by
    rw [List.length_zip, ← hlen, Nat.min_self]
    exact hp
  refine ⟨⟨_, hvec, hlength, fun x hx => getElem?_apply hp hx⟩, hget,
    ⟨_, apply_eq hget, perm_filterMap hget, pairwise_getBy std hlt vec⟩,
    ⟨_, _, hvec, apply_eq hpar, ?_, ?_⟩⟩
  · rw [hlength, (perm_filterMap hpar).length_eq, hlen]
  · rw [apply_eq hzip, zip_filterMap hlen]

theorem apply_sorts_three :
    (∃ vec', apply [30, 10, 20] [2, 0, 1] = some vec' ∧ vec'.length = 3 ∧
      ∀ x < 3, vec'[x]? = [30, 10, 20][[2, 0, 1].getD x 0]?) ∧
    (∃ vec', apply [30, 10, 20]
        (getBy WeakOrderStdSort.merge.toStdSort (fun x y => decide (x < y)) [30, 10, 20]) =
      some vec' ∧ vec'.Perm [30, 10, 20] ∧ vec'.Pairwise (fun x y => ¬decide (y < x) = true)) := by
  have hlt : IsStrictWeakOrder Nat (fun x y => decide (x < y) = true) :=
    { irrefl := by simp
      trans := by simpa using fun a b c => @Nat.lt_trans a b c
      incomp_trans := by
        simp only [decide_eq_true_eq]
        omega }
  have hp : [2, 0, 1].Perm (List.range [30, 10, 20].length) := by decide
  have hlen : [30, 10, 20].length = ["c", "a", "b"].length := rfl
  obtain ⟨happly, -, hsorted, -⟩ := apply_sorts WeakOrderStdSort.merge hlt hp hlen
  exact ⟨happly, hsorted⟩

end Spec

end SortPermutation

end Hypertrie
