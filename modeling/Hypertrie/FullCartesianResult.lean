import Hypertrie.Library.Ensures
import Hypertrie.Library.FactorExchange
import Hypertrie.Library.Odometer
import Hypertrie.Library.Tally

/-! Products of results. The enumeration is an odometer over the entries of the
sub-results; it writes their keys to a target entry that is shared with others. -/

namespace Hypertrie

open Weighted Odometer FactorExchange

variable {K : Type}

/-- An entry of a result. A value of type `bool` is 0 or 1. -/
abbrev Entry (K : Type) := Weighted (List K)

def Entry.makeFilled [Inhabited K] (size value : Nat) : Entry K := ⟨List.replicate size default, value⟩

def Entry.setKey (e : Entry K) (key : List K) : Entry K := ⟨key, e.value⟩

def Entry.setValue (e : Entry K) (value : Nat) : Entry K := ⟨e.key, value⟩

/-- `resultMapping` has for each sub-result the positions that it writes. -/
structure FullCartesianResult (K : Type) where
  subResults : List (List (Entry K))
  resultMapping : List (List Nat)
  iterPoss : List Nat
  value : Nat
  ended : Bool

namespace FullCartesianResult

variable (mul : Nat → Nat → Nat) (boolValued : Bool)
variable (updateEntryKey : List Nat → List K → List K → List K)

def new (subResults : List (List (Entry K))) (resultMapping : List (List Nat)) :
    FullCartesianResult K :=
  ⟨subResults, resultMapping, subResults.map fun _ => 0, 1, true⟩

/-- Writes the keys of the current entries. -/
def writeCurrent : List (List (Entry K)) → List (List Nat) → List Nat → List K → Option (List K)
  | subResult :: subResults, poss :: mapping, iterPos :: iterPoss, key => do
    let current ← subResult[iterPos]?
    writeCurrent subResults mapping iterPoss (updateEntryKey poss key current.key)
  | [], _, _, key => some key
  | _ :: _, _, _, _ => none

/-- The loop of `operator++`: positions, value, target key and whether the end is reached. -/
def incrementFrom : List (List (Entry K)) → List (List Nat) → List Nat → Nat → List K →
    Option (List Nat × Nat × List K × Bool)
  | subResult :: subResults, poss :: mapping, iterPos :: iterPoss, value, key => do
    let last ← subResult[iterPos]?
    let carryOver := iterPos + 1 == subResult.length
    let nextPos := if carryOver then 0 else iterPos + 1
    let current ← subResult[nextPos]?
    let key := updateEntryKey poss key current.key
    let value := if boolValued then value else mul value current.value / last.value
    if carryOver then do
      let (iterPoss, value, key, ended) ← incrementFrom subResults mapping iterPoss value key
      some (nextPos :: iterPoss, value, key, ended)
    else do
      let key ← writeCurrent updateEntryKey subResults mapping iterPoss key
      some (nextPos :: iterPoss, value, key, false)
  | [], _, _, value, key => some ([], value, key, true)
  | _ :: _, _, _, _, _ => none

/-- `operator++`. -/
def increment (r : FullCartesianResult K) (key : List K) :
    Option (FullCartesianResult K × List K) := do
  let (iterPoss, value, key, ended) ←
    incrementFrom mul boolValued updateEntryKey r.subResults r.resultMapping r.iterPoss r.value key
  some ({ r with iterPoss := iterPoss, value := value, ended := ended }, key)

/-- The loop of `restart`. -/
def restartFrom : List (List (Entry K)) → List (List Nat) → Nat → List K → Option (Nat × List K)
  | subResult :: subResults, poss :: mapping, value, key => do
    let current ← subResult[0]?
    restartFrom subResults mapping (if boolValued then value else mul value current.value)
      (updateEntryKey poss key current.key)
  | [], _, value, key => some (value, key)
  | _ :: _, _, _, _ => none

def restart (r : FullCartesianResult K) (key : List K) :
    Option (FullCartesianResult K × List K) := do
  let (value, key) ← restartFrom mul boolValued updateEntryKey r.subResults r.resultMapping 1 key
  some ({ r with iterPoss := r.subResults.map fun _ => 0, value := value, ended := false }, key)

/-- The rest of a loop over the product, with at most so many rounds. The body is given the value
and the target entry, and the entry is yielded. -/
def loop (body : Nat → Entry K → Entry K) :
    Nat → FullCartesianResult K → Entry K → Option (List (Entry K) × Entry K)
  | 0, _, _ => none
  | fuel + 1, r, e =>
    if r.ended then some ([], e)
    else do
      let entry := body r.value e
      let (r, key) ← r.increment mul boolValued updateEntryKey entry.key
      let (rest, e) ← loop body fuel r (entry.setKey key)
      some (entry :: rest, e)

/-- A loop over the product yields for each tuple. -/
def forEach (body : Nat → Entry K → Entry K) (r : FullCartesianResult K) (e : Entry K) :
    Option (List (Entry K) × Entry K) := do
  let (r, key) ← r.restart mul boolValued updateEntryKey e.key
  r.loop mul boolValued updateEntryKey body ((r.subResults.map List.length).prod + 1) (e.setKey key)

section Spec

variable {mul : Nat → Nat → Nat} {boolValued : Bool}
variable {updateEntryKey : List Nat → List K → List K → List K}
variable {subResults : List (List (Entry K))} {mapping : List (List Nat)} {iterPoss : List Nat}
variable {current next : List (Entry K)} {rest : List (List (Entry K))}

/-- Writes a key for each sub-result. -/
def writeTuple (updateEntryKey : List Nat → List K → List K → List K) :
    List (List Nat) → List (List K) → List K → List K
  | poss :: mapping, source :: tuple, key =>
    writeTuple updateEntryKey mapping tuple (updateEntryKey poss key source)
  | _, _, key => key

/-- The values that a step exchanges. -/
def exchangedValues (subResults : List (List (Entry K))) (iterPoss : List Nat) : List (Nat × Nat) :=
  (replaced subResults iterPoss).map (Prod.map Weighted.value Weighted.value)

/-- What a step does to the value. -/
def updateValue (mul : Nat → Nat → Nat) (boolValued : Bool) (subResults : List (List (Entry K)))
    (iterPoss : List Nat) (value : Nat) : Nat :=
  if boolValued then value else (exchangedValues subResults iterPoss).foldl (exchange mul) value

/-- The value after `restart`. -/
def startValue (mul : Nat → Nat → Nat) (boolValued : Bool) (current : List (Entry K)) : Nat :=
  if boolValued then 1 else (current.map Weighted.value).foldl mul 1

/-- These tuples with the values that are reported for them one after the other. -/
def reportedFrom (mul : Nat → Nat → Nat) (boolValued : Bool) (subResults : List (List (Entry K))) :
    List (List (Entry K)) → List Nat → Nat → List (Weighted (List (List K)))
  | [], _, _ => []
  | current :: rest, iterPoss, value =>
    ⟨current.map Weighted.key, value⟩ :: reportedFrom mul boolValued subResults rest
      (advance subResults iterPoss) (updateValue mul boolValued subResults iterPoss value)

/-- What a loop over the product reports. -/
def reportedTuples (mul : Nat → Nat → Nat) (boolValued : Bool) (subResults : List (List (Entry K))) :
    List (Weighted (List (List K))) :=
  reportedFrom mul boolValued subResults subResults.sections (subResults.map fun _ => 0)
    (startValue mul boolValued (subResults.sections.headD []))

/-- The current entries are written. -/
theorem writeCurrent_spec (h : InRange subResults iterPoss) (hl : mapping.length = subResults.length)
    (hread : reading subResults iterPoss = some current) (key : List K) :
    writeCurrent updateEntryKey subResults mapping iterPoss key =
      some (writeTuple updateEntryKey mapping (current.map Weighted.key) key) := by
  induction h generalizing mapping current key with
  | nil =>
    cases hread
    rw [List.length_eq_zero_iff.mp hl]
    rfl
  | @cons subResult iterPos subResults iterPoss hpos hrest ih =>
    cases mapping with
    | nil => cases hl
    | cons poss mapping =>
      obtain ⟨current', rest', -, hread'⟩ := exists_remaining hrest
      rw [reading, List.getElem?_eq_getElem hpos, hread'] at hread
      obtain rfl := Option.some.inj hread
      rw [writeCurrent, List.getElem?_eq_getElem hpos]
      exact ih (by simpa using hl) hread' _

/-- One increment goes to the next tuple, or back to the first one after the last. -/
theorem incrementFrom_spec (h : InRange subResults iterPoss) (hl : mapping.length = subResults.length)
    (hrem : remaining subResults iterPoss = current :: rest)
    (hnext : reading subResults (advance subResults iterPoss) = some next) (value : Nat)
    (key : List K) : incrementFrom mul boolValued updateEntryKey subResults mapping iterPoss value key =
      some (advance subResults iterPoss, updateValue mul boolValued subResults iterPoss value,
        writeTuple updateEntryKey mapping (next.map Weighted.key) key, rest.isEmpty) := by
  induction h generalizing mapping current rest next value key with
  | nil =>
    cases hrem
    cases hnext
    have hvalue : updateValue mul boolValued ([] : List (List (Entry K))) [] value = value := ite_self _
    rw [List.length_eq_zero_iff.mp hl, hvalue]
    rfl
  | @cons subResult iterPos subResults iterPoss hpos hrest ih =>
    cases mapping with
    | nil => cases hl
    | cons poss mapping =>
      have hl : mapping.length = subResults.length := by simpa using hl
      obtain ⟨current', rest', hrem', hread'⟩ := exists_remaining hrest
      rw [remaining_cons_of_lt hrem' hpos] at hrem
      obtain ⟨rfl, rfl⟩ := List.cons.inj hrem
      rw [incrementFrom, List.getElem?_eq_getElem hpos]
      simp only [Option.bind_eq_bind, Option.bind_some]
      by_cases hcarry : iterPos + 1 = subResult.length
      · obtain ⟨next', rest'', -, hnext'⟩ := exists_remaining (InRange.advance hrest)
        have h0 : 0 < subResult.length := by omega
        have hdrop : subResult.drop (iterPos + 1) = [] := List.drop_eq_nil_of_le (by omega)
        have hempty : (rest'.flatMap fun current => subResult.map (· :: current)).isEmpty =
            rest'.isEmpty := by
          cases rest' with
          | nil => rfl
          | cons c rest' =>
            obtain ⟨e, es, rfl⟩ := List.exists_cons_of_length_pos h0
            rfl
        have hvalue : updateValue mul boolValued (subResult :: subResults) (iterPos :: iterPoss) value =
            updateValue mul boolValued subResults iterPoss
              (if boolValued then value else mul value subResult[0].value / subResult[iterPos].value) := by
          cases boolValued with
          | true => rfl
          | false => simp only [updateValue, exchangedValues, replaced_carry h0 hpos hcarry]; rfl
        rw [advance, if_pos hcarry, reading, List.getElem?_eq_getElem h0, hnext'] at hnext
        obtain rfl := Option.some.inj hnext
        simp only [hcarry, beq_self_eq_true, if_true, List.getElem?_eq_getElem h0, Option.bind_some]
        rw [ih hl hrem' hnext', ← hcarry, hdrop, List.map_nil, List.nil_append, hempty, hvalue, advance,
          if_pos hcarry]
        rfl
      · have hlt : iterPos + 1 < subResult.length := by omega
        rw [advance, if_neg hcarry, reading, List.getElem?_eq_getElem hlt, hread'] at hnext
        obtain rfl := Option.some.inj hnext
        have hvalue : updateValue mul boolValued (subResult :: subResults) (iterPos :: iterPoss) value =
            if boolValued then value
              else mul value subResult[iterPos + 1].value / subResult[iterPos].value := by
          rw [updateValue, exchangedValues, replaced_of_lt hlt]
          rfl
        simp only [beq_eq_false_iff_ne.mpr hcarry, Bool.false_eq_true, if_false,
          List.getElem?_eq_getElem hlt, Option.bind_some]
        rw [writeCurrent_spec hrest hl hread', hvalue, advance, if_neg hcarry,
          List.drop_eq_getElem_cons hlt]
        rfl

/-- Values that count are not zero, so that they can be divided by. -/
def ValuesOk (boolValued : Bool) (subResults : List (List (Entry K))) : Prop :=
  boolValued = false → ∀ subResult ∈ subResults, ∀ e ∈ subResult, e.value ≠ 0

theorem ValuesOk.tail {subResult : List (Entry K)} (h : ValuesOk boolValued (subResult :: subResults)) :
    ValuesOk boolValued subResults :=
  fun hb s hs => h hb s (List.mem_cons_of_mem _ hs)

/-- A step exchanges factors of the product for those of the next one. -/
theorem exchanges_step (h : InRange subResults iterPoss) (hval : ValuesOk false subResults)
    (hread : reading subResults iterPoss = some current)
    (hnext : reading subResults (advance subResults iterPoss) = some next) (factor : Nat) :
    Exchanges (factor * (ofTuple current).value) (exchangedValues subResults iterPoss)
      (factor * (ofTuple next).value) := by
  induction h generalizing current next factor with
  | nil =>
    cases hread
    cases hnext
    exact .nil _
  | @cons subResult iterPos subResults iterPoss hpos hrest ih =>
    have hpositive (e : Entry K) (he : e ∈ subResult) : 0 < e.value :=
      Nat.pos_of_ne_zero (hval rfl subResult List.mem_cons_self e he)
    obtain ⟨current', rest', -, hread'⟩ := exists_remaining hrest
    rw [reading, List.getElem?_eq_getElem hpos, hread'] at hread
    obtain rfl := Option.some.inj hread
    have hfirst (e : Entry K) (tuple : List (Entry K)) :
        factor * (ofTuple (e :: tuple)).value = factor * (ofTuple tuple).value * e.value := by
      rw [value_ofTuple_cons]
      ring
    by_cases hcarry : iterPos + 1 = subResult.length
    · obtain ⟨next', rest'', -, hnext'⟩ := exists_remaining (InRange.advance hrest)
      have h0 : 0 < subResult.length := by omega
      rw [advance, if_pos hcarry, reading, List.getElem?_eq_getElem h0, hnext'] at hnext
      obtain rfl := Option.some.inj hnext
      have ih := ih hval.tail hread' hnext' (factor * subResult[0].value)
      rw [mul_right_comm, mul_right_comm factor _ (ofTuple next').value] at ih
      rw [exchangedValues, replaced_carry h0 hpos hcarry, hfirst, hfirst]
      refine .cons (hpositive _ (List.getElem_mem hpos)) (hpositive _ (List.getElem_mem h0)) ih
    · have hlt : iterPos + 1 < subResult.length := by omega
      rw [advance, if_neg hcarry, reading, List.getElem?_eq_getElem hlt, hread'] at hnext
      obtain rfl := Option.some.inj hnext
      rw [exchangedValues, replaced_of_lt hlt, hfirst, hfirst]
      exact .cons (hpositive _ (List.getElem_mem hpos)) (hpositive _ (List.getElem_mem hlt)) (.nil _)

/-- The value reported for a tuple. -/
def reported (boolValued : Bool) (tuple : Weighted (List (List K))) : Nat :=
  if boolValued then 1 else tuple.value

theorem updateValue_exact (h : InRange subResults iterPoss) (hval : ValuesOk boolValued subResults)
    (hread : reading subResults iterPoss = some current)
    (hnext : reading subResults (advance subResults iterPoss) = some next) :
    updateValue (· * ·) boolValued subResults iterPoss (reported boolValued (ofTuple current)) =
      reported boolValued (ofTuple next) := by
  cases boolValued with
  | true => rfl
  | false =>
    have hexchanges := (exchanges_step h hval hread hnext 1).foldl_mul
    rwa [one_mul, one_mul] at hexchanges

/-- Starting anew goes to the first tuple. -/
theorem restartFrom_spec (h : ∀ subResult ∈ subResults, subResult ≠ [])
    (hl : mapping.length = subResults.length) (hsections : subResults.sections = current :: rest)
    (value : Nat) (key : List K) :
    restartFrom mul boolValued updateEntryKey subResults mapping value key =
      some (if boolValued then value else (current.map Weighted.value).foldl mul value,
        writeTuple updateEntryKey mapping (current.map Weighted.key) key) := by
  induction subResults generalizing mapping current rest value key with
  | nil =>
    cases hsections
    rw [List.length_eq_zero_iff.mp hl, restartFrom, List.map_nil, List.foldl_nil, ite_self]
    rfl
  | cons subResult subResults ih =>
    cases mapping with
    | nil => cases hl
    | cons poss mapping =>
      have hne (s) (hs : s ∈ subResults) := h s (List.mem_cons_of_mem _ hs)
      obtain ⟨current', rest', hsections'⟩ := List.exists_cons_of_ne_nil (sections_ne_nil hne)
      obtain ⟨e, es, rfl⟩ := List.exists_cons_of_ne_nil (h subResult List.mem_cons_self)
      rw [sections_cons_of_eq_cons hsections'] at hsections
      obtain ⟨rfl, -⟩ := List.cons.inj hsections
      rw [restartFrom, List.getElem?_cons_zero]
      simp only [Option.bind_eq_bind, Option.bind_some]
      rw [ih hne (by simpa using hl) hsections']
      cases boolValued <;> rfl

theorem restart_exact (boolValued : Bool) (current : List (Entry K)) :
    startValue (· * ·) boolValued current = reported boolValued (ofTuple current) := by
  rw [startValue, reported, ofTuple, List.prod_eq_foldl]

/-- Without overflow the values are those of the tuples. -/
theorem reportedFrom_exact (hrange : InRange subResults iterPoss) (hval : ValuesOk boolValued subResults)
    (hrem : remaining subResults iterPoss = current :: rest) :
    reportedFrom (· * ·) boolValued subResults (current :: rest) iterPoss
        (reported boolValued (ofTuple current)) = (current :: rest).map fun tuple =>
      ⟨(ofTuple tuple).key, reported boolValued (ofTuple tuple)⟩ := by
  induction rest generalizing iterPoss current with
  | nil => rfl
  | cons next rest ih =>
    have hrem' := remaining_advance hrange hrem
    rw [if_neg (List.cons_ne_nil _ _)] at hrem'
    have hnext := reading_of_remaining hrange.advance hrem'
    rw [reportedFrom, updateValue_exact hrange hval (reading_of_remaining hrange hrem) hnext,
      ih hrange.advance hrem']
    rfl

variable {body : Nat → Entry K → Entry K} {Q : Entry K → Prop}

/-- The entry yielded for a tuple with the value that is reported, if `Q` holds of all target
entries. -/
def YieldsReported (updateEntryKey : List Nat → List K → List K → List K) (mapping : List (List Nat))
    (body : Nat → Entry K → Entry K) (Q : Entry K → Prop) (tuple : Weighted (List (List K)))
    (entry : Entry K) : Prop :=
  ∃ e, Q e ∧ entry = body tuple.value
    (e.setKey (writeTuple updateEntryKey mapping tuple.key e.key))

theorem loop_spec {r : FullCartesianResult K} {fuel : Nat} {e : Entry K}
    (hwrite : ∀ e tuple, Q e → Q (e.setKey (writeTuple updateEntryKey r.resultMapping tuple e.key)))
    (hbody : ∀ tuple ∈ reportedFrom mul boolValued r.subResults (current :: rest) r.iterPoss r.value,
      ∀ e, Q e → Q (body tuple.value e))
    (hrange : InRange r.subResults r.iterPoss) (hl : r.resultMapping.length = r.subResults.length)
    (hrem : remaining r.subResults r.iterPoss = current :: rest) (hended : r.ended = false) (hQ : Q e)
    (hfuel : rest.length + 1 < fuel) :
    Ensures (r.loop mul boolValued updateEntryKey body fuel
        (e.setKey (writeTuple updateEntryKey r.resultMapping (ofTuple current).key e.key)))
      (fun res => Q res.2 ∧ List.Forall₂ (YieldsReported updateEntryKey r.resultMapping body Q)
        (reportedFrom mul boolValued r.subResults (current :: rest) r.iterPoss r.value) res.1) := by
  induction rest generalizing r current fuel e with
  | nil =>
    obtain ⟨fuel, rfl⟩ : ∃ n, fuel = n + 2 := ⟨fuel - 2, by simp at hfuel; omega⟩
    have hentry := hbody _ List.mem_cons_self _ (hwrite e (ofTuple current).key hQ)
    obtain ⟨next, rest', -, hnext⟩ := exists_remaining hrange.advance
    rw [loop, hended, if_neg Bool.false_ne_true]
    simp only [increment, incrementFrom_spec hrange hl hrem hnext, Option.bind_eq_bind,
      Option.bind_some]
    exact Ensures.pure ⟨hwrite _ (ofTuple next).key hentry, .cons ⟨e, hQ, rfl⟩ .nil⟩
  | cons current' rest ih =>
    obtain ⟨fuel, rfl⟩ : ∃ n, fuel = n + 1 := ⟨fuel - 1, by omega⟩
    have hentry := hbody _ List.mem_cons_self _ (hwrite e (ofTuple current).key hQ)
    have hrem' := remaining_advance hrange hrem
    rw [if_neg (List.cons_ne_nil _ _)] at hrem'
    have hnext := reading_of_remaining hrange.advance hrem'
    rw [loop, hended, if_neg Bool.false_ne_true]
    simp only [increment, incrementFrom_spec hrange hl hrem hnext, Option.bind_eq_bind,
      Option.bind_some]
    refine Ensures.bind (ih (r := { r with iterPoss := _, value := _, ended := false })
      hwrite (fun tuple hm => hbody tuple (List.mem_cons_of_mem _ hm)) hrange.advance hl hrem' rfl
      hentry (by simpa using hfuel)) ?_
    rintro ⟨out, e'⟩ ⟨hQ', hout⟩
    exact Ensures.pure ⟨hQ', .cons ⟨e, hQ, rfl⟩ hout⟩

/-- A loop over the product yields for each tuple what is reported for it. -/
theorem forEach_reported {r : FullCartesianResult K} {e : Entry K}
    (hwrite : ∀ e tuple, Q e → Q (e.setKey (writeTuple updateEntryKey r.resultMapping tuple e.key)))
    (hbody : ∀ tuple ∈ reportedTuples mul boolValued r.subResults, ∀ e, Q e → Q (body tuple.value e))
    (hne : ∀ subResult ∈ r.subResults, subResult ≠ [])
    (hl : r.resultMapping.length = r.subResults.length) (hQ : Q e) :
    Ensures (r.forEach mul boolValued updateEntryKey body e) (fun res => Q res.2 ∧
      List.Forall₂ (YieldsReported updateEntryKey r.resultMapping body Q)
        (reportedTuples mul boolValued r.subResults) res.1) := by
  obtain ⟨current, rest, hsections⟩ := List.exists_cons_of_ne_nil (sections_ne_nil hne)
  have hlen := congrArg List.length hsections
  rw [length_sections, List.length_cons] at hlen
  rw [reportedTuples, hsections] at hbody ⊢
  rw [forEach, restart, restartFrom_spec hne hl hsections]
  simp only [Option.bind_eq_bind, Option.bind_some]
  exact loop_spec (r := { r with iterPoss := _, value := _, ended := false }) hwrite hbody
    (inRange_start hne) hl ((remaining_start hne).trans hsections) rfl hQ
    (by rw [hlen]; exact Nat.lt_succ_self _)

/-- Values of type `bool` are never updated. -/
theorem reportedTuples_bool (mul mul' : Nat → Nat → Nat) (subResults : List (List (Entry K))) :
    reportedTuples mul true subResults = reportedTuples mul' true subResults := by
  have hfrom (tuples : List (List (Entry K))) (iterPoss : List Nat) (value : Nat) :
      reportedFrom mul true subResults tuples iterPoss value =
        reportedFrom mul' true subResults tuples iterPoss value := by
    induction tuples generalizing iterPoss value with
    | nil => rfl
    | cons current rest ih => exact congrArg _ (ih _ _)
  exact hfrom _ _ _

theorem value_reportedTuples_bool (mul : Nat → Nat → Nat) (subResults : List (List (Entry K))) :
    ∀ tuple ∈ reportedTuples mul true subResults, tuple.value = 1 := by
  have hfrom (tuples : List (List (Entry K))) (iterPoss : List Nat) (value : Nat) :
      ∀ tuple ∈ reportedFrom mul true subResults tuples iterPoss value, tuple.value = value := by
    induction tuples generalizing iterPoss value with
    | nil => simp [reportedFrom]
    | cons current rest ih => exact List.forall_mem_cons.mpr ⟨rfl, ih _ _⟩
  exact hfrom _ _ _

theorem keys_reportedTuples (mul : Nat → Nat → Nat) (boolValued : Bool)
    (subResults : List (List (Entry K))) :
    (reportedTuples mul boolValued subResults).map (·.key) = (tuples subResults).map (·.key) := by
  have hfrom (tuples : List (List (Entry K))) (iterPoss : List Nat) (value : Nat) :
      (reportedFrom mul boolValued subResults tuples iterPoss value).map (·.key) =
        tuples.map fun current => current.map (·.key) := by
    induction tuples generalizing iterPoss value with
    | nil => rfl
    | cons current rest ih => exact congrArg _ (ih _ _)
  rw [reportedTuples, hfrom, tuples_eq_map_sections, List.map_map]
  rfl

theorem reportedTuples_exact (hne : ∀ subResult ∈ subResults, subResult ≠ [])
    (hval : ValuesOk boolValued subResults) : reportedTuples (· * ·) boolValued subResults =
      (tuples subResults).map fun tuple => ⟨tuple.key, reported boolValued tuple⟩ := by
  obtain ⟨current, rest, hsections⟩ := List.exists_cons_of_ne_nil (sections_ne_nil hne)
  rw [reportedTuples, tuples_eq_map_sections, List.map_map, hsections, List.headD_cons, restart_exact]
  exact reportedFrom_exact (inRange_start hne) hval ((remaining_start hne).trans hsections)

/-- The entry yielded for a tuple, if `Q` holds of all target entries. -/
def YieldsFor (updateEntryKey : List Nat → List K → List K → List K) (boolValued : Bool)
    (mapping : List (List Nat)) (body : Nat → Entry K → Entry K) (Q : Entry K → Prop)
    (tuple : Weighted (List (List K))) (entry : Entry K) : Prop :=
  ∃ e, Q e ∧ entry = body (reported boolValued tuple)
    (e.setKey (writeTuple updateEntryKey mapping tuple.key e.key))

/-- A loop over the product yields for each tuple. -/
theorem forEach_spec {r : FullCartesianResult K} {e : Entry K}
    (hwrite : ∀ e tuple, Q e → Q (e.setKey (writeTuple updateEntryKey r.resultMapping tuple e.key)))
    (hbody : ∀ value e, Q e → Q (body value e))
    (hne : ∀ subResult ∈ r.subResults, subResult ≠ [])
    (hl : r.resultMapping.length = r.subResults.length) (hval : ValuesOk boolValued r.subResults)
    (hQ : Q e) : Ensures (r.forEach (· * ·) boolValued updateEntryKey body e) (fun res => Q res.2 ∧
      List.Forall₂ (YieldsFor updateEntryKey boolValued r.resultMapping body Q)
        (tuples r.subResults) res.1) := by
  refine (forEach_reported hwrite (fun tuple _ => hbody tuple.value) hne hl hQ).mono
    fun res hres => ⟨hres.1, ?_⟩
  have hout := hres.2
  rw [reportedTuples_exact hne hval] at hout
  exact (List.forall₂_map_left_iff.mp hout).imp fun _ _ h => h

end Spec

end FullCartesianResult

end Hypertrie
