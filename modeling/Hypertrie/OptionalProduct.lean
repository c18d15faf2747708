import Hypertrie.ProductOverflow
import Hypertrie.QueryFrame

/-! Products of optional results. Where a result is missing its variables stay unbound; the
products of the others are there all the same. -/

namespace Hypertrie

open Weighted FullCartesianResult FactorExchange

namespace Query

variable {K : Type}

section Keys

variable [Inhabited K]
variable {poss : List Nat} {pos size : Nat} {key key' source : List K}
variable {mapping : List (List Nat)} {sources : List (List K)}

/-- The parts of the key at these positions; the others are unbound. -/
def restrict (poss : List Nat) (key : List K) : List K :=
  key.mapIdx fun pos part => if pos ∈ poss then part else default

theorem getElem?_restrict (h : pos ∈ poss) (key : List K) : (restrict poss key)[pos]? = key[pos]? := by
  simp [restrict, h]

theorem getElem?_restrict_of_notMem (h : pos ∉ poss) (key : List K) :
    (restrict poss key)[pos]? = key[pos]?.map fun _ => default := by
  simp [restrict, h]

/-- The key is as long as an entry, and unbound elsewhere. -/
structure BoundAt (size : Nat) (poss : List Nat) (source : List K) : Prop where
  length : source.length = size
  restrict_eq : restrict poss source = source

theorem BoundAt.eq_restrict (h : BoundAt size poss source) (hl : key.length = size)
    (hkey : ∀ pos ∈ poss, key[pos]? = source[pos]?) : restrict poss key = source := by
  rw [← h.restrict_eq]
  apply List.ext_getElem?
  intro pos
  by_cases hm : pos ∈ poss
  · rw [getElem?_restrict hm, getElem?_restrict hm, hkey pos hm]
  · rw [getElem?_restrict_of_notMem hm, getElem?_restrict_of_notMem hm]
    by_cases hlt : pos < size
    · rw [List.getElem?_eq_getElem (hl ▸ hlt), List.getElem?_eq_getElem (h.length ▸ hlt)]
      rfl
    · rw [List.getElem?_eq_none (by omega), List.getElem?_eq_none (by rw [h.length]; omega)]

theorem restrict_replicate (poss : List Nat) (size : Nat) :
    restrict poss (List.replicate size (default : K)) = List.replicate size default := by
  apply List.ext_getElem?
  intro pos
  by_cases hm : pos ∈ poss
  · exact getElem?_restrict hm _
  · rw [getElem?_restrict_of_notMem hm, List.getElem?_replicate]
    split <;> rfl

theorem boundAt_replicate (poss : List Nat) (size : Nat) :
    BoundAt size poss (List.replicate size (default : K)) :=
  ⟨List.length_replicate, restrict_replicate poss size⟩

theorem boundAt_of_agreesOutside (h : AgreesOutside poss (List.replicate size default) key) :
    BoundAt size poss key := by
  have hlength : key.length = size := h.length.trans List.length_replicate
  refine ⟨hlength, List.ext_getElem? fun pos => ?_⟩
  by_cases hm : pos ∈ poss
  · exact getElem?_restrict hm key
  · rw [getElem?_restrict_of_notMem hm, h.getElem pos hm, List.getElem?_replicate]
    split <;> rfl

/-- Where a tuple is written, the result has its parts and is as before elsewhere. -/
theorem writeTuple_eq_iff [DecidableEq K] (hdisj : mapping.Pairwise List.Disjoint)
    (hpos : ∀ poss ∈ mapping, ∀ pos ∈ poss, pos < size)
    (hbound : List.Forall₂ (BoundAt size) mapping sources) (hl : key.length = size) :
    writeTuple copyKey mapping sources key = key' ↔
      AgreesOutside mapping.flatten key key' ∧ mapping.map (restrict · key') = sources := by
  have hfits : List.Forall₂ (fun poss source => Version.query.Fits size poss source) mapping sources :=
    ((List.forall₂_and_left mapping sources).mpr ⟨hpos, hbound⟩).imp
      fun _ _ h => ⟨h.2.length, h.1⟩
  have hparts : List.Forall₂ (fun poss source => Version.query.HoldsParts poss
      (writeTuple copyKey mapping sources key) source) mapping sources :=
    Version.holdsParts_writeTuple hdisj hfits hl
  have hagree := AgreesOutside.writeTuple mapping sources key
  constructor
  · rintro rfl
    refine ⟨hagree, List.forall₂_eq_eq_eq ▸ List.forall₂_map_left_iff.mpr ?_⟩
    exact List.Forall₂.mp (fun poss source hb hp => hb.eq_restrict (hagree.length.trans hl) hp) hbound hparts
  · rintro ⟨hagree', rfl⟩
    have hparts := List.forall₂_same.mp (List.forall₂_map_right_iff.mp hparts)
    apply List.ext_getElem?
    intro pos
    by_cases hm : pos ∈ mapping.flatten
    · obtain ⟨poss, hposs, hm⟩ := List.mem_flatten.mp hm
      exact (hparts poss hposs pos hm).trans (getElem?_restrict hm key')
    · exact (hagree.getElem pos hm).trans (hagree'.getElem pos hm).symm

theorem writeTuple_concat (h : mapping.length = sources.length) (poss : List Nat)
    (source key : List K) : writeTuple copyKey (mapping ++ [poss]) (sources ++ [source]) key =
      copyKey poss (writeTuple copyKey mapping sources key) source := by
  induction mapping generalizing sources key with
  | nil =>
    rw [List.length_eq_zero_iff.mp h.symm]
    rfl
  | cons poss' mapping ih =>
    obtain ⟨source', sources, rfl⟩ := List.exists_cons_of_length_eq_add_one h.symm
    exact ih (by simpa using h) _

/-- Parts that are unbound already stay so. -/
theorem copyKey_unbound (hl : key.length = size)
    (h : ∀ pos ∈ poss, key[pos]? = (List.replicate size (default : K))[pos]?) :
    copyKey poss key (List.replicate size default) = key := by
  apply List.ext_getElem?
  intro pos
  by_cases hm : pos ∈ poss
  · by_cases hlt : pos < key.length
    · rw [getElem?_copyKey (by simp [hl]) hm hlt, h pos hm]
    · rw [List.getElem?_eq_none (by rw [length_copyKey]; omega), List.getElem?_eq_none (by omega)]
  · exact getElem?_copyKey_of_notMem hm key _

end Keys

section Products

variable [DecidableEq K] [Inhabited K]
variable {boolValued : Bool} {size value : Nat} {poss : List Nat} {bag : List K → Nat}
variable {out : List (Entry K)} {outs : List (List (Entry K))} {key key' : List K}
variable {parts : List (List Nat × (List K → Nat))}

/-- A bag without tuples is replaced by the single unbound tuple. -/
noncomputable def optionalBag (size : Nat) (bag : List K → Nat) : List K → Nat :=
  open Classical in
  if ∀ key, bag key = 0 then fun key => if key = List.replicate size default then 1 else 0 else bag

/-- The positions that are written for these parts of a product. -/
def writtenPoss (parts : List (List Nat × (List K → Nat))) : List Nat := (parts.map Prod.fst).flatten

omit [DecidableEq K] [Inhabited K] in
theorem mem_writtenPoss {pos : Nat} :
    pos ∈ writtenPoss parts ↔ ∃ part ∈ parts, pos ∈ part.1 := by
  simp [writtenPoss, List.mem_flatten]

/-- The product of bags over disjoint positions; a key is as given elsewhere. -/
noncomputable def product (key : List K) (parts : List (List Nat × (List K → Nat))) (key' : List K) :
    Nat :=
  open Classical in
  if AgreesOutside (writtenPoss parts) key key' then
    (parts.map fun part => part.2 (restrict part.1 key')).prod
  else 0

/-- The entries have the amounts of the bag, and no zero values. -/
structure Represents (boolValued : Bool) (size : Nat) (poss : List Nat) (bag : List K → Nat)
    (out : List (Entry K)) : Prop where
  bound : ∀ e ∈ out, BoundAt size poss e.key
  value_ne_zero : ∀ e ∈ out, e.value ≠ 0
  value_bool : boolValued = true → ∀ e ∈ out, e.value = 1
  amount_eq : ∀ key, amount boolValued (weight out key) = amount boolValued (bag key)

/-- Entries of several bags. -/
def RepresentsAll (boolValued : Bool) (size : Nat) (parts : List (List Nat × (List K → Nat)))
    (outs : List (List (Entry K))) : Prop :=
  List.Forall₂ (fun part out => Represents boolValued size part.1 part.2 out) parts outs

theorem Represents.eq_nil_iff (h : Represents boolValued size poss bag out) :
    out = [] ↔ ∀ key, bag key = 0 := by
  constructor
  · rintro rfl key
    exact amount_eq_zero.mp ((h.amount_eq key).symm.trans (amount_eq_zero.mpr (weight_nil key)))
  · intro hbag
    refine List.eq_nil_iff_forall_not_mem.mpr fun e he => ?_
    refine (weight_ne_zero h.value_ne_zero).mpr (List.mem_map_of_mem he) ?_
    exact amount_eq_zero.mp ((h.amount_eq e.key).trans (amount_eq_zero.mpr (hbag e.key)))

/-- A missing result is replaced by the single unbound entry. -/
theorem Represents.optional (h : Represents boolValued size poss bag out) :
    Represents boolValued size poss (optionalBag size bag) (Version.query.subResultVec size out) := by
  by_cases hempty : out = []
  · have hvec : Version.query.subResultVec size out = [Entry.makeFilled size 1] := by
      rw [hempty]
      rfl
    rw [hvec, optionalBag, if_pos (h.eq_nil_iff.mp hempty)]
    refine ⟨?_, ?_, ?_, fun key => ?_⟩
    · simp [Entry.makeFilled, boundAt_replicate]
    · simp [Entry.makeFilled]
    · simp [Entry.makeFilled]
    · rw [weight_cons, weight_nil, Nat.add_zero]
      exact congrArg _ (if_congr eq_comm rfl rfl)
  · rw [subResultVec_of_ne_nil hempty, optionalBag, if_neg fun hbag => hempty (h.eq_nil_iff.mpr hbag)]
    exact h

theorem RepresentsAll.bound (h : RepresentsAll boolValued size parts outs) :
    ∀ tuple ∈ tuples outs, List.Forall₂ (BoundAt size) (parts.map Prod.fst) tuple.key := by
  induction h with
  | nil =>
    intro tuple hm
    rw [List.mem_singleton.mp hm]
    exact .nil
  | cons hout _ ih =>
    intro tuple hm
    obtain ⟨tuple', hm', hm⟩ := List.mem_flatMap.mp hm
    obtain ⟨e, he, rfl⟩ := List.mem_map.mp hm
    exact .cons (hout.bound e he) (ih tuple' hm')

theorem RepresentsAll.value_of_mem (h : RepresentsAll boolValued size parts outs) :
    ∀ out ∈ outs, ∀ e ∈ out, e.value ≠ 0 :=
  forall_mem_of_forall₂ h fun _ _ hout => hout.value_ne_zero

theorem RepresentsAll.value_ne_zero (h : RepresentsAll boolValued size parts outs) :
    ∀ tuple ∈ tuples outs, tuple.value ≠ 0 := value_tuples h.value_of_mem

theorem RepresentsAll.amount_eq (h : RepresentsAll boolValued size parts outs) (key : List K) :
    amount boolValued (weight (tuples outs) (parts.map fun part => restrict part.1 key)) =
      amount boolValued (parts.map fun part => part.2 (restrict part.1 key)).prod := by
  rw [weight_tuples (by simpa using h.length_eq), amount_prod, amount_prod]
  induction h with
  | nil => rfl
  | cons hout _ ih =>
    simp only [List.map_cons, List.zipWith_cons_cons, List.prod_cons]
    rw [ih, hout.amount_eq]

theorem RepresentsAll.value_eq_one (h : RepresentsAll true size parts outs) :
    ∀ out ∈ outs, ∀ e ∈ out, e.value = 1 :=
  forall_mem_of_forall₂ h fun _ _ hout => hout.value_bool rfl

/-- An entry with the parts of a tuple, and otherwise with those of the key. -/
def WrittenTo (parts : List (List Nat × (List K → Nat))) (key : List K) (tuple : List (List K))
    (e : Entry K) : Prop :=
  ∃ key', AgreesOutside (writtenPoss parts) key key' ∧
    e.key = writeTuple copyKey (parts.map Prod.fst) tuple key'

/-- The positions are disjoint and inside of an entry. -/
structure Separate (size : Nat) (parts : List (List Nat × (List K → Nat))) : Prop where
  disjoint : (parts.map Prod.fst).Pairwise List.Disjoint
  lt : ∀ poss ∈ parts.map Prod.fst, ∀ pos ∈ poss, pos < size

theorem WrittenTo.key_eq_iff {tuple : List (List K)} {e : Entry K} (h : WrittenTo parts key tuple e)
    (hsep : Separate size parts) (hl : key.length = size)
    (hbound : List.Forall₂ (BoundAt size) (parts.map Prod.fst) tuple) :
    e.key = key' ↔ AgreesOutside (writtenPoss parts) key key' ∧
      tuple = parts.map fun part => restrict part.1 key' := by
  obtain ⟨key'', hagree, hkey⟩ := h
  rw [hkey, writeTuple_eq_iff hsep.disjoint hsep.lt hbound (hagree.length.trans hl), List.map_map,
    eq_comm (a := tuple)]
  exact and_congr_left fun _ => ⟨hagree.trans, hagree.symm.trans⟩

variable {written : List (Weighted (List (List K)))}

/-- The tuples are written one after the other, with the values that they have. -/
def YieldsTuples (parts : List (List Nat × (List K → Nat))) (key : List K)
    (written : List (Weighted (List (List K)))) (out : List (Entry K)) : Prop :=
  List.Forall₂ (fun tuple e => WrittenTo parts key tuple.key e ∧ e.value = tuple.value) written out

theorem weight_of_agrees (hsep : Separate size parts) (hl : key.length = size)
    (hbound : ∀ tuple ∈ written, List.Forall₂ (BoundAt size) (parts.map Prod.fst) tuple.key)
    (h : YieldsTuples parts key written out) (hagree : AgreesOutside (writtenPoss parts) key key') :
    weight out key' = weight written (parts.map fun part => restrict part.1 key') := by
  refine weight_of_forall₂ (((List.forall₂_and_left _ _).mpr ⟨hbound, h⟩).imp fun tuple e he => ⟨?_, he.2.2⟩)
  exact (he.2.1.key_eq_iff hsep hl he.1).trans (and_iff_right hagree)

theorem weight_of_not_agrees {keys : List (List (List K))} (hsep : Separate size parts)
    (hl : key.length = size)
    (hbound : ∀ tuple ∈ keys, List.Forall₂ (BoundAt size) (parts.map Prod.fst) tuple)
    (h : List.Forall₂ (WrittenTo parts key) keys out)
    (hnot : ¬ AgreesOutside (writtenPoss parts) key key') : weight out key' = 0 := by
  have hkeys : ∀ e ∈ out, e.key ≠ key' :=
    forall_mem_of_forall₂ ((List.forall₂_and_left _ _).mpr ⟨hbound, h⟩) fun tuple e he hkey =>
      hnot ((he.2.key_eq_iff hsep hl he.1).mp hkey).1
  refine weight_of_not_mem fun hm => ?_
  obtain ⟨e, he, hkey⟩ := List.mem_map.mp hm
  exact hkeys e he hkey

omit [DecidableEq K] in
theorem YieldsTuples.writtenTo (h : YieldsTuples parts key written out) :
    List.Forall₂ (WrittenTo parts key) (written.map (·.key)) out :=
  List.forall₂_map_left_iff.mpr (h.imp fun _ _ he => he.1)

/-- The values of the yielded entries sum up to the product. -/
theorem amount_product (hsep : Separate size parts) (hl : key.length = size)
    (hall : RepresentsAll boolValued size parts outs) (h : YieldsTuples parts key (tuples outs) out)
    (key' : List K) :
    amount boolValued (weight out key') = amount boolValued (product key parts key') := by
  by_cases hagree : AgreesOutside (writtenPoss parts) key key'
  · rw [product, if_pos hagree, ← hall.amount_eq, weight_of_agrees hsep hl hall.bound h hagree]
  · rw [product, if_neg hagree,
      weight_of_not_agrees hsep hl (List.forall_mem_map.mpr hall.bound) h.writtenTo hagree]

/-- Values that sum up to the product are those of the tuples. -/
theorem weight_eq_of_product (hsep : Separate size parts) (hl : key.length = size)
    (hall : RepresentsAll false size parts outs)
    (hkeys : written.map (·.key) = (tuples outs).map (·.key)) (h : YieldsTuples parts key written out)
    (hproduct : ∀ key', weight out key' = product key parts key') (bs : List (List K)) :
    weight written bs = weight (tuples outs) bs := by
  have hbound : ∀ tuple ∈ written, List.Forall₂ (BoundAt size) (parts.map Prod.fst) tuple.key := by
    refine List.forall_mem_map.mp ?_
    rw [hkeys]
    exact List.forall_mem_map.mpr hall.bound
  by_cases hm : bs ∈ (tuples outs).map (·.key)
  · obtain ⟨tuple, htuple, rfl⟩ := List.mem_map.mp hm
    obtain ⟨key', hwritten⟩ : ∃ key', writeTuple copyKey (parts.map Prod.fst) tuple.key key = key' :=
      ⟨_, rfl⟩
    obtain ⟨hagree, hrestrict⟩ :=
      (writeTuple_eq_iff hsep.disjoint hsep.lt (hall.bound tuple htuple) hl).mp hwritten
    have hagree : AgreesOutside (writtenPoss parts) key key' := hagree
    rw [List.map_map] at hrestrict
    have hamount := hall.amount_eq key'
    have heq := hproduct key'
    rw [weight_of_agrees hsep hl hbound h hagree, product, if_pos hagree] at heq
    rw [← hrestrict]
    exact heq.trans hamount.symm
  · rw [weight_of_not_mem hm, weight_of_not_mem (hkeys ▸ hm)]

/-- The values sum up to the same one for all keys of the product if it is not set. -/
theorem weight_unset (hsep : Separate size parts) (hl : key.length = size)
    (hall : RepresentsAll boolValued size parts outs)
    (hnodup : ∀ out ∈ outs, (out.map (·.key)).Nodup)
    (h : List.Forall₂ (WrittenTo parts key) ((tuples outs).map (·.key)) out)
    (hvalue : ∀ e ∈ out, e.value = value) (key' : List K) :
    weight out key' = if product key parts key' = 0 then 0 else value := by
  by_cases hagree : AgreesOutside (writtenPoss parts) key key'
  · have hkeys : ((tuples outs).map (·.key)).Nodup := by
      rw [keys_tuples]
      exact Odometer.nodup_sections (List.forall_mem_map.mpr hnodup)
    have hwritten := List.forall₂_map_left_iff.mp h
    have hwritten := ((List.forall₂_and_left _ _).mpr ⟨hvalue, hwritten.flip⟩).flip
    have hweight := weight_of_constant (b := parts.map fun part => restrict part.1 key') (c := key')
      (((List.forall₂_and_left _ _).mpr ⟨hall.bound, hwritten⟩).imp fun tuple e he =>
        ⟨(WrittenTo.key_eq_iff he.2.2 hsep hl he.1).trans (and_iff_right hagree), he.2.1⟩) hkeys
    have hzero : product key parts key' = 0 ↔
        (parts.map fun part => restrict part.1 key') ∉ (tuples outs).map (·.key) := by
      rw [← weight_ne_zero hall.value_ne_zero, not_ne_iff, product, if_pos hagree,
        ← @amount_eq_zero boolValued, ← hall.amount_eq, amount_eq_zero]
    by_cases hz : product key parts key' = 0
    · rw [hweight, if_neg (hzero.mp hz), if_pos hz]
    · rw [hweight, if_pos (not_not.mp fun hm => hz (hzero.mpr hm)), if_neg hz]
  · rw [product, if_neg hagree, if_pos rfl,
      weight_of_not_agrees hsep hl (List.forall_mem_map.mpr hall.bound) h hagree]

omit [DecidableEq K] in
theorem product_perm {parts' : List (List Nat × (List K → Nat))} (h : parts.Perm parts') :
    product key parts key' = product key parts' key' := by
  have hagree : AgreesOutside (writtenPoss parts) key key' ↔
      AgreesOutside (writtenPoss parts') key key' := by
    have hperm := (h.map Prod.fst).flatten
    exact ⟨fun ha => ha.mono hperm.subset, fun ha => ha.mono hperm.symm.subset⟩
  have hprod := (h.map fun part => part.2 (restrict part.1 key')).prod_eq
  rw [product, product, hprod, propext hagree]

end Products

section Reported

variable {boolValued : Bool} {vecs vecs' : List (List (Entry K))} {last : List (Entry K)}

/-- What is reported for the entries of the last list one after the other. -/
def reportedProducts (boolValued : Bool) (vecs : List (List (Entry K))) (last : List (Entry K)) :
    List (Weighted (List (List K))) :=
  last.flatMap fun e => (reportedTuples (mulMod (2 ^ 64)) boolValued vecs).map fun tuple =>
    ⟨tuple.key ++ [e.key], mulMod (2 ^ 64) e.value tuple.value⟩

theorem length_of_mem_reportedTuples {tuple : Weighted (List (List K))}
    (hm : tuple ∈ reportedTuples (mulMod (2 ^ 64)) boolValued vecs) : tuple.key.length = vecs.length := by
  have hkey : tuple.key ∈ (tuples vecs).map (·.key) := by
    rw [← keys_reportedTuples (mulMod (2 ^ 64)) boolValued]
    exact List.mem_map_of_mem hm
  rw [keys_tuples] at hkey
  exact (List.mem_sections.mp hkey).length_eq.trans (List.length_map _)

theorem value_lt_of_mem_reportedTuples {tuple : Weighted (List (List K))}
    (hm : tuple ∈ reportedTuples (mulMod (2 ^ 64)) boolValued vecs) : tuple.value < 2 ^ 64 := by
  cases boolValued with
  | true =>
    rw [value_reportedTuples_bool _ _ tuple hm]
    decide
  | false => exact lt_of_mem_reportedTuples (by decide) tuple hm

theorem keys_reportedProducts (boolValued : Bool) (vecs : List (List (Entry K))) (last : List (Entry K)) :
    (reportedProducts boolValued vecs last).map (·.key) = (tuples (vecs ++ [last])).map (·.key) := by
  have hkeys (key : List K) : (reportedTuples (mulMod (2 ^ 64)) boolValued vecs).map
      (fun tuple => tuple.key ++ [key]) = (tuples vecs).map fun tuple => tuple.key ++ [key] := by
    have h := congrArg (List.map (· ++ [key])) (keys_reportedTuples (mulMod (2 ^ 64)) boolValued vecs)
    rwa [List.map_map, List.map_map] at h
  rw [reportedProducts, tuples_concat, List.map_flatMap, List.map_flatMap]
  congr 1
  funext e
  rw [List.map_map, List.map_map]
  exact hkeys e.key

theorem lt_of_mem_reportedProducts :
    ∀ tuple ∈ reportedProducts boolValued vecs last, tuple.value < 2 ^ 64 := by
  intro tuple hm
  obtain ⟨e, -, hm⟩ := List.mem_flatMap.mp hm
  obtain ⟨tuple, -, rfl⟩ := List.mem_map.mp hm
  exact Nat.mod_lt _ (by decide)

/-- Values of type `bool` are all the same. -/
theorem reportedProducts_bool (hne : ∀ vec ∈ vecs, vec ≠ [])
    (hvalue : ∀ vec ∈ vecs, ∀ e ∈ vec, e.value = 1) (hlast : ∀ e ∈ last, e.value = 1) :
    reportedProducts true vecs last = tuples (vecs ++ [last]) := by
  have hvecs := value_tuples_eq_one hvalue
  have hreported : reportedTuples (mulMod (2 ^ 64)) true vecs = tuples vecs := by
    rw [reportedTuples_bool _ (· * ·), reportedTuples_exact hne (by simp [ValuesOk])]
    refine (List.map_congr_left fun tuple hm => ?_).trans (List.map_id _)
    rw [reported, if_pos rfl, ← hvecs tuple hm]
    rfl
  rw [reportedProducts, tuples_concat, hreported]
  refine List.flatMap_congr fun e he => List.map_congr_left fun tuple hm => ?_
  rw [hlast e he, hvecs tuple hm]
  rfl

/-- No product is too large for `std::size_t`, and no step to another one. -/
def Fits (vecs : List (List (Entry K))) (last : List (Entry K)) : Prop :=
  (∀ tuple ∈ tuples (vecs ++ [last]), tuple.value < 2 ^ 64) ∧ NoOverflow (2 ^ 64) 1 vecs

section Values

variable [Inhabited K]
variable (hne : ∀ vec ∈ vecs, vec ≠ []) (hval : ∀ vec ∈ vecs, ∀ e ∈ vec, e.value ≠ 0)
variable (hlast : last ≠ []) (hvalLast : ∀ e ∈ last, e.value ≠ 0)
include hne hval

theorem reportedProducts_le : List.Forall₂ (fun reported tuple => reported.key = tuple.key ∧
    reported.value ≤ tuple.value) (reportedProducts false vecs last) (tuples (vecs ++ [last])) := by
  rw [reportedProducts, tuples_concat]
  induction last with
  | nil => exact .nil
  | cons e last ih =>
    rw [List.flatMap_cons, List.flatMap_cons]
    refine List.rel_append ?_ ih
    refine List.forall₂_map_left_iff.mpr (List.forall₂_map_right_iff.mpr ?_)
    refine (reportedTuples_le (2 ^ 64) hne fun _ => hval).imp fun reported tuple h => ?_
    refine ⟨congrArg (· ++ [e.key]) h.1, (Nat.mod_le _ _).trans ?_⟩
    rw [Nat.mul_comm tuple.value]
    exact Nat.mul_le_mul_left _ h.2

include hlast hvalLast

omit [Inhabited K] hne hval in
theorem Fits.tuples_lt (h : Fits vecs last) : ∀ tuple ∈ tuples vecs, tuple.value < 2 ^ 64 := by
  intro tuple hm
  obtain ⟨e, he⟩ := List.exists_mem_of_ne_nil _ hlast
  refine (Nat.le_mul_of_pos_right _ (Nat.pos_of_ne_zero (hvalLast e he))).trans_lt
    (h.1 ⟨tuple.key ++ [e.key], tuple.value * e.value⟩ ?_)
  rw [tuples_concat]
  exact List.mem_flatMap.mpr ⟨e, he, List.mem_map_of_mem hm⟩

/-- What is reported is right if no product and no step to another one overflows. -/
theorem reportedProducts_eq_iff :
    reportedProducts false vecs last = tuples (vecs ++ [last]) ↔ Fits vecs last := by
  have hiff := reportedTuples_eq_iff (m := 2 ^ 64) (by decide) hne fun _ => hval
  constructor
  · intro heq
    refine ⟨fun tuple hm => lt_of_mem_reportedProducts tuple (heq ▸ hm), (hiff.mp ?_).2⟩
    obtain ⟨e, rest, rfl⟩ := List.exists_cons_of_ne_nil hlast
    have hpos := Nat.pos_of_ne_zero (hvalLast e List.mem_cons_self)
    have hequal {l l' : List (Weighted (List (List K)))} (hle : List.Forall₂ (fun reported tuple =>
        reported.key = tuple.key ∧ reported.value ≤ tuple.value) l l')
        (h : l.map (fun tuple => (⟨tuple.key ++ [e.key], mulMod (2 ^ 64) e.value tuple.value⟩ :
          Weighted (List (List K)))) = l'.map fun tuple => ⟨tuple.key ++ [e.key], tuple.value * e.value⟩) :
        l = l' := by
      induction hle with
      | nil => rfl
      | @cons reported tuple l l' hfirst _ ih =>
        obtain ⟨h, hrest⟩ := List.cons.inj h
        have hvalue : mulMod (2 ^ 64) e.value reported.value = tuple.value * e.value :=
          congrArg Weighted.value h
        have hle : tuple.value * e.value ≤ reported.value * e.value := by
          rw [← hvalue, Nat.mul_comm reported.value]
          exact Nat.mod_le _ _
        have hvalue := Nat.le_antisymm hfirst.2 (Nat.le_of_mul_le_mul_right hle hpos)
        obtain ⟨key, value⟩ := reported
        obtain ⟨key', value'⟩ := tuple
        rw [show key = key' from hfirst.1, show value = value' from hvalue, ih hrest]
    have hle := reportedTuples_le (2 ^ 64) hne fun _ => hval
    rw [reportedProducts, tuples_concat, List.flatMap_cons, List.flatMap_cons] at heq
    exact hequal hle (List.append_inj_left heq (by rw [List.length_map, List.length_map, hle.length_eq]))
  · intro h
    have hreported := hiff.mpr ⟨h.tuples_lt hlast hvalLast, h.2⟩
    rw [reportedProducts, tuples_concat, hreported]
    refine List.flatMap_congr fun e he => List.map_congr_left fun tuple hm => ?_
    have hlt := h.1 ⟨tuple.key ++ [e.key], tuple.value * e.value⟩ (by
      rw [tuples_concat]
      exact List.mem_flatMap.mpr ⟨e, he, List.mem_map_of_mem hm⟩)
    rw [mulMod, Nat.mul_comm, Nat.mod_eq_of_lt hlt]

omit [Inhabited K] hne in
/-- The first product is computed without overflow. -/
theorem Fits.foldl_value {current : List (Entry K)} (h : Fits vecs last) (hcurrent : current ∈ vecs.sections) :
    (current.map Weighted.value).foldl (mulMod (2 ^ 64)) 1 = (ofTuple current).value := by
  have hnonzero := value_of_forall₂_mem (fun _ => hval) (List.mem_sections.mp hcurrent)
  have htuple : ofTuple current ∈ tuples vecs := by
    rw [tuples_eq_map_sections]
    exact List.mem_map_of_mem hcurrent
  have hlt := h.tuples_lt hlast hvalLast _ htuple
  have hfold : (current.map Weighted.value).foldl (mulMod (2 ^ 64)) 1 =
      1 * (current.map Weighted.value).prod := foldl_mulMod hnonzero (by rw [one_mul]; exact hlt)
  rwa [one_mul] at hfold

omit [Inhabited K] in
/-- The values of the single results fit as well. -/
theorem Fits.value_lt (hnodup : ∀ vec ∈ vecs, (vec.map (·.key)).Nodup) (h : Fits vecs last) :
    ∀ vec ∈ vecs, ∀ e ∈ vec, e.value < 2 ^ 64 := by
  intro vec hvec e he
  obtain ⟨bs, hbs, hle⟩ := exists_key_of_mem hne hval hnodup hvec he
  obtain ⟨tuple, htuple, rfl⟩ := List.mem_map.mp hbs
  exact (hle tuple htuple rfl).trans_lt (h.tuples_lt hlast hvalLast tuple htuple)

end Values

/-- The entries are the same if the values of the second list fit into `std::size_t`. -/
def Wrapped (vec vec' : List (Entry K)) : Prop :=
  List.Forall₂ (fun e e' => e.key = e'.key ∧ (e'.value < 2 ^ 64 → e.value = e'.value)) vec vec'

theorem Wrapped.eq {vec vec' : List (Entry K)} (h : Wrapped vec vec')
    (hlt : ∀ e ∈ vec', e.value < 2 ^ 64) : vec = vec' := by
  induction h with
  | nil => rfl
  | @cons e e' vec vec' he _ ih =>
    obtain ⟨hfirst, hrest⟩ := List.forall_mem_cons.mp hlt
    obtain ⟨key, value⟩ := e
    obtain ⟨key', value'⟩ := e'
    rw [show key = key' from he.1, show value = value' from he.2 hfirst, ih hrest]

theorem Wrapped.keys_eq {vec vec' : List (Entry K)} (h : Wrapped vec vec') :
    vec.map (·.key) = vec'.map (·.key) := by
  induction h with
  | nil => rfl
  | cons he _ ih => rw [List.map_cons, List.map_cons, he.1, ih]

theorem eq_of_wrapped (h : List.Forall₂ Wrapped vecs vecs')
    (hlt : ∀ vec ∈ vecs', ∀ e ∈ vec, e.value < 2 ^ 64) : vecs = vecs' := by
  induction h with
  | nil => rfl
  | cons hvec _ ih =>
    obtain ⟨hfirst, hlt⟩ := List.forall_mem_cons.mp hlt
    rw [hvec.eq hfirst, ih hlt]

theorem ne_nil_of_wrapped (h : List.Forall₂ Wrapped vecs vecs') (hne : ∀ vec ∈ vecs', vec ≠ []) :
    ∀ vec ∈ vecs, vec ≠ [] := by
  induction h with
  | nil => simp
  | cons hvec _ ih =>
    obtain ⟨hfirst, hrest⟩ := List.forall_mem_cons.mp hne
    refine List.forall_mem_cons.mpr ⟨?_, ih hrest⟩
    rintro rfl
    cases hvec
    exact hfirst rfl

theorem keys_of_wrapped (h : List.Forall₂ Wrapped vecs vecs') (last : List (Entry K)) :
    (tuples (vecs ++ [last])).map (·.key) = (tuples (vecs' ++ [last])).map (·.key) := by
  have hmap : vecs.map (List.map Weighted.key) = vecs'.map (List.map Weighted.key) := by
    induction h with
    | nil => rfl
    | cons hvec _ ih => rw [List.map_cons, List.map_cons, ih, hvec.keys_eq]
  rw [keys_tuples, keys_tuples, List.map_append, List.map_append, hmap]

variable [DecidableEq K]

/-- Values that sum up to those of the exact tuples have not wrapped around. -/
theorem fits_of_weight_eq [Inhabited K]
    (h : List.Forall₂ Wrapped vecs vecs') (hne : ∀ vec ∈ vecs', vec ≠ [])
    (hval : ∀ vec ∈ vecs', ∀ e ∈ vec, e.value ≠ 0) (hnodup : ∀ vec ∈ vecs', (vec.map (·.key)).Nodup)
    (hlast : last ≠ []) (hvalLast : ∀ e ∈ last, e.value ≠ 0)
    (hweight : ∀ bs, weight (reportedProducts false vecs last) bs = weight (tuples (vecs' ++ [last])) bs) :
    Fits vecs' last := by
  have hkeys := (keys_reportedProducts false vecs last).trans (keys_of_wrapped h last)
  have hlt : ∀ vec ∈ vecs', ∀ e ∈ vec, e.value < 2 ^ 64 := by
    intro vec hvec e he
    by_contra hlarge
    obtain ⟨bs, hbs, hle⟩ := exists_key_of_mem hne hval hnodup hvec he
    obtain ⟨tuple, htuple, rfl⟩ := List.mem_map.mp hbs
    obtain ⟨e₁, he₁⟩ := List.exists_mem_of_ne_nil _ hlast
    have hmem : tuple.key ++ [e₁.key] ∈ (tuples (vecs' ++ [last])).map (·.key) := by
      rw [tuples_concat]
      refine List.mem_map.mpr ⟨⟨_, tuple.value * e₁.value⟩, ?_, rfl⟩
      exact List.mem_flatMap.mpr ⟨e₁, he₁, List.mem_map_of_mem htuple⟩
    have hlarge : ∀ t ∈ tuples (vecs' ++ [last]), t.key = tuple.key ++ [e₁.key] → 2 ^ 64 ≤ t.value := by
      rw [tuples_concat]
      intro t ht hkey
      obtain ⟨e₂, he₂, ht⟩ := List.mem_flatMap.mp ht
      obtain ⟨tuple', htuple', rfl⟩ := List.mem_map.mp ht
      have hkey := (List.append_inj' hkey rfl).1
      have hpos := Nat.pos_of_ne_zero (hvalLast e₂ he₂)
      exact (Nat.le_of_not_lt hlarge).trans
        ((hle tuple' htuple' hkey).trans (Nat.le_mul_of_pos_right _ hpos))
    exact absurd (hweight _) (weight_lt_of_keys_eq hkeys lt_of_mem_reportedProducts hlarge hmem).ne
  rw [eq_of_wrapped h hlt] at hweight
  exact (reportedProducts_eq_iff hne hval hlast hvalLast).mp
    (eq_of_weight_eq (reportedProducts_le hne hval) hweight)

/-- The reported products are right unless a value of them does not fit. -/
theorem yieldsTuples_iff [Inhabited K]
    {size : Nat} {parts : List (List Nat × (List K → Nat))} {key : List K}
    {out : List (Entry K)} (hsep : Separate size parts) (hl : key.length = size)
    (hall : RepresentsAll boolValued size parts (vecs' ++ [last])) (hwrapped : List.Forall₂ Wrapped vecs vecs')
    (hne : ∀ vec ∈ vecs', vec ≠ []) (hnodup : ∀ vec ∈ vecs', (vec.map (·.key)).Nodup) (hlast : last ≠ [])
    (h : YieldsTuples parts key (reportedProducts boolValued vecs last) out) :
    (∀ key', amount boolValued (weight out key') = amount boolValued (product key parts key')) ↔
      (boolValued = false → Fits vecs' last) := by
  have hval := hall.value_of_mem
  obtain ⟨hval, hvalLast⟩ := List.forall_mem_append.mp hval
  have hvalLast := List.forall_mem_singleton.mp hvalLast
  cases boolValued with
  | true =>
    have hone := hall.value_eq_one
    obtain ⟨hone, honeLast⟩ := List.forall_mem_append.mp hone
    have heq : vecs = vecs' := eq_of_wrapped hwrapped fun vec hvec e he => by
      rw [hone vec hvec e he]
      decide
    rw [heq, reportedProducts_bool hne hone (List.forall_mem_singleton.mp honeLast)] at h
    exact iff_of_true (amount_product hsep hl hall h) (by simp)
  | false =>
    constructor
    · intro hproduct _
      have hkeys := (keys_reportedProducts false vecs last).trans (keys_of_wrapped hwrapped last)
      exact fits_of_weight_eq hwrapped hne hval hnodup hlast hvalLast
        (weight_eq_of_product hsep hl hall hkeys h hproduct)
    · intro hfits
      have hfits := hfits rfl
      rw [eq_of_wrapped hwrapped (hfits.value_lt hne hval hlast hvalLast hnodup),
        (reportedProducts_eq_iff hne hval hlast hvalLast).mpr hfits] at h
      exact amount_product hsep hl hall h

end Reported

end Query

end Hypertrie
