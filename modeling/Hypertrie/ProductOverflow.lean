import Hypertrie.ProductVisits

/-! The product with values of 64 bits. An exchange of factors can overflow although
no product of a tuple does, and the value stays too small from then on. -/

namespace Hypertrie

open Weighted Odometer FactorExchange

variable {K : Type}

namespace FullCartesianResult

variable {m factor value : Nat} {version : Version} {size : Nat}
variable {subResults : List (List (Entry K))} {mapping : List (List Nat)} {iterPoss : List Nat}
variable {current : List (Entry K)} {vs : List (Visit K)}

/-- No step to the next entry of a sub-result, or back to the first one unless all later
sub-results are at their last entries, multiplies up to `m`. The earlier sub-results are at their
first entries then, and `factor` is the product of those. -/
def NoOverflow (m : Nat) : Nat → List (List (Entry K)) → Prop
  | _, [] => True
  | factor, subResult :: subResults =>
    (∀ step ∈ subResult.zip subResult.tail, ∀ later ∈ subResults.sections,
      factor * (ofTuple later).value * step.1.value * step.2.value < m) ∧
    ∀ last ∈ subResult.getLast?, ∀ first ∈ subResult.head?,
      (∀ later ∈ subResults.sections.dropLast,
        factor * (ofTuple later).value * last.value * first.value < m) ∧
      NoOverflow m (factor * first.value) subResults

/-- No multiplication of a step to another tuple reaches `m`. -/
def StepsBelow (m factor : Nat) (subResults : List (List (Entry K))) : Prop :=
  ∀ iterPoss current rest, InRange subResults iterPoss →
    remaining subResults iterPoss = current :: rest → rest ≠ [] →
    Below m (factor * (ofTuple current).value) (exchangedValues subResults iterPoss)

theorem value_mul_ofTuple_cons (factor : Nat) (e : Entry K) (tuple : List (Entry K)) :
    factor * (ofTuple (e :: tuple)).value = factor * (ofTuple tuple).value * e.value := by
  rw [value_ofTuple_cons]
  ring

/-- A step without a carry. -/
theorem below_of_lt {subResult : List (Entry K)} {iterPos : Nat} (hlt : iterPos + 1 < subResult.length)
    (later : List (Entry K)) : Below m (factor * (ofTuple (subResult[iterPos] :: later)).value)
      (exchangedValues (subResult :: subResults) (iterPos :: iterPoss)) ↔
      factor * (ofTuple later).value * subResult[iterPos].value * subResult[iterPos + 1].value < m := by
  rw [exchangedValues, replaced_of_lt hlt, value_mul_ofTuple_cons]
  exact and_iff_left trivial

/-- A step with a carry. -/
theorem below_carry {subResult : List (Entry K)} {iterPos : Nat} (h0 : 0 < subResult.length)
    (hpos : iterPos < subResult.length) (hcarry : iterPos + 1 = subResult.length)
    (hvalue : 0 < subResult[iterPos].value) (later : List (Entry K)) : Below m (factor * (ofTuple (subResult[iterPos] :: later)).value)
      (exchangedValues (subResult :: subResults) (iterPos :: iterPoss)) ↔
      factor * (ofTuple later).value * subResult[iterPos].value *
          subResult[0].value < m ∧
        Below m (factor * subResult[0].value * (ofTuple later).value)
          (exchangedValues subResults iterPoss) := by
  rw [exchangedValues, replaced_carry h0 hpos hcarry, value_mul_ofTuple_cons,
    mul_right_comm factor subResult[0].value,
    ← exchange_mul hvalue (factor * (ofTuple later).value) subResult[0].value]
  rfl

theorem mem_zip_tail {α : Type} {l : List α} {step : α × α} :
    step ∈ l.zip l.tail ↔ ∃ (pos : Nat) (_ : pos < l.length) (_ : pos + 1 < l.length),
      step = (l[pos], l[pos + 1]) := by
  rw [List.mem_iff_getElem]
  constructor
  · rintro ⟨pos, hpos, rfl⟩
    have hlt : pos + 1 < l.length := by
      rw [List.length_zip, List.length_tail] at hpos
      omega
    exact ⟨pos, by omega, hlt, by rw [List.getElem_zip, List.getElem_tail]⟩
  · rintro ⟨pos, -, hlt, rfl⟩
    have hpos : pos < (l.zip l.tail).length := by
      rw [List.length_zip, List.length_tail]
      omega
    exact ⟨pos, hpos, by rw [List.getElem_zip, List.getElem_tail]⟩

theorem NoOverflow.stepsBelow (h : NoOverflow m factor subResults) (hval : ValuesOk false subResults) :
    StepsBelow m factor subResults := by
  intro iterPoss current rest hrange hrem hmore
  induction hrange generalizing factor current rest with
  | nil =>
    cases hrem
    exact absurd rfl hmore
  | @cons subResult iterPos subResults iterPoss hpos hrest ih =>
    obtain ⟨hsteps, hcarries⟩ := h
    obtain ⟨later, rest', hrem', -⟩ := exists_remaining hrest
    have hsuffix := remaining_suffix hrest
    rw [hrem'] at hsuffix
    rw [remaining_cons_of_lt hrem' hpos] at hrem
    obtain ⟨rfl, rfl⟩ := List.cons.inj hrem
    by_cases hcarry : iterPos + 1 = subResult.length
    · have hvalue := Nat.pos_of_ne_zero
        (hval rfl subResult List.mem_cons_self _ (List.getElem_mem hpos))
      have h0 : 0 < subResult.length := by omega
      have hdrop : subResult.drop (iterPos + 1) = [] := List.drop_eq_nil_of_le (by omega)
      have hmore : rest' ≠ [] := fun hnil => hmore (by rw [hdrop, hnil]; rfl)
      have hlast : subResult.getLast? = some subResult[iterPos] := by
        rw [List.getLast?_eq_getElem?, ← hcarry, Nat.add_sub_cancel, List.getElem?_eq_getElem hpos]
      have hfirst : subResult.head? = some subResult[0] := by
        rw [List.head?_eq_getElem?, List.getElem?_eq_getElem h0]
      obtain ⟨hcarries, hlater⟩ := hcarries _ hlast _ hfirst
      rw [below_carry h0 hpos hcarry hvalue]
      refine ⟨hcarries later ?_, ih hlater hval.tail _ _ hrem' hmore⟩
      obtain ⟨before, hbefore⟩ := hsuffix
      rw [← hbefore, List.dropLast_append_of_ne_nil (List.cons_ne_nil _ _),
        List.dropLast_cons_of_ne_nil hmore]
      exact List.mem_append_right _ List.mem_cons_self
    · have hlt : iterPos + 1 < subResult.length := by omega
      rw [below_of_lt hlt]
      exact hsteps _ (mem_zip_tail.mpr ⟨iterPos, _, hlt, rfl⟩) later (hsuffix.mem List.mem_cons_self)

theorem StepsBelow.noOverflow (h : StepsBelow m factor subResults) (hval : ValuesOk false subResults)
    (hne : ∀ subResult ∈ subResults, subResult ≠ []) : NoOverflow m factor subResults := by
  induction subResults generalizing factor with
  | nil => trivial
  | cons subResult subResults ih =>
    have hne' (s) (hs : s ∈ subResults) := hne s (List.mem_cons_of_mem _ hs)
    refine ⟨fun step hstep later hlater => ?_, fun last hlast first hfirst => ?_⟩
    · obtain ⟨iterPos, -, hlt, rfl⟩ := mem_zip_tail.mp hstep
      obtain ⟨n, hn, rfl⟩ := List.mem_iff_getElem.mp hlater
      obtain ⟨hrange, hrem⟩ := remaining_iterate hne' hn
      rw [List.drop_eq_getElem_cons hn] at hrem
      have hrem := remaining_cons_of_lt hrem (show iterPos < subResult.length by omega)
      refine (below_of_lt hlt _).mp (h _ _ _ (.cons (by omega) hrange) hrem ?_)
      rw [List.drop_eq_getElem_cons hlt]
      exact List.cons_ne_nil _ _
    · have hlength : 0 < subResult.length := List.length_pos_iff.mpr (hne subResult List.mem_cons_self)
      have hpos : subResult.length - 1 < subResult.length := by omega
      have hcarry : subResult.length - 1 + 1 = subResult.length := by omega
      have hvalue := Nat.pos_of_ne_zero
        (hval rfl subResult List.mem_cons_self _ (List.getElem_mem hpos))
      rw [List.getLast?_eq_getElem?, List.getElem?_eq_getElem hpos] at hlast
      rw [List.head?_eq_getElem?, List.getElem?_eq_getElem hlength] at hfirst
      obtain rfl := Option.some.inj hlast
      obtain rfl := Option.some.inj hfirst
      have hstep {iterPoss : List Nat} {later : List (Entry K)} {rest : List (List (Entry K))}
          (hrange : InRange subResults iterPoss) (hrem : remaining subResults iterPoss = later :: rest)
          (hmore : rest ≠ []) := by
        refine (below_carry hlength hpos hcarry hvalue later).mp
          (h _ _ _ (.cons hpos hrange) (remaining_cons_of_lt hrem hpos) ?_)
        obtain ⟨next, rest, rfl⟩ := List.exists_cons_of_ne_nil hmore
        simp [hne subResult List.mem_cons_self]
      refine ⟨fun later hlater => ?_, ih ?_ hval.tail hne'⟩
      · obtain ⟨n, hn, rfl⟩ := List.mem_iff_getElem.mp hlater
        rw [List.length_dropLast] at hn
        rw [List.getElem_dropLast]
        obtain ⟨hrange, hrem⟩ := remaining_iterate hne' (show n < subResults.sections.length by omega)
        rw [List.drop_eq_getElem_cons (by omega)] at hrem
        refine (hstep hrange hrem ?_).1
        simp only [ne_eq, List.drop_eq_nil_iff]
        omega
      · exact fun iterPoss later rest hrange hrem hmore => (hstep hrange hrem hmore).2

/-- No multiplication of the step from here reaches `m`. -/
def StepBelow (m : Nat) (subResults : List (List (Entry K))) (iterPoss : List Nat) : Prop :=
  ∀ current, reading subResults iterPoss = some current →
    Below m (ofTuple current).value (exchangedValues subResults iterPoss)

theorem stepsBelow_iff (hne : ∀ subResult ∈ subResults, subResult ≠ []) :
    StepsBelow m 1 subResults ↔ ∀ n, n + 1 < subResults.sections.length →
      StepBelow m subResults ((advance subResults)^[n] (subResults.map fun _ => 0)) := by
  constructor
  · intro h n hn current hread
    obtain ⟨hrange, hrem⟩ := remaining_iterate hne (show n < subResults.sections.length by omega)
    rw [List.drop_eq_getElem_cons (by omega)] at hrem
    rw [reading_of_remaining hrange hrem] at hread
    obtain rfl := Option.some.inj hread
    have hbelow := h _ _ _ hrange hrem (by simpa [List.drop_eq_nil_iff] using hn)
    rwa [one_mul] at hbelow
  · intro h iterPoss current rest hrange hrem hmore
    obtain ⟨before, hbefore⟩ := remaining_suffix hrange
    have hlength := congrArg List.length hbefore
    rw [hrem, List.length_append, List.length_cons] at hlength
    have hmore := List.length_pos_iff.mpr hmore
    obtain ⟨hrange', hrem'⟩ := remaining_iterate hne
      (show before.length < subResults.sections.length by omega)
    have heq := eq_of_length_remaining_eq hrange hrange' (by
      rw [hrem, hrem', List.length_drop, List.length_cons]
      omega)
    rw [one_mul, heq]
    refine h before.length (by omega) current ?_
    rw [← heq]
    exact reading_of_remaining hrange hrem

variable [Inhabited K]

theorem Visited.values_iff
    (h : Visited (mulMod m) false version size subResults mapping iterPoss value vs)
    (hrange : InRange subResults iterPoss) (hval : ValuesOk false subResults) (hm : 0 < m)
    (hread : reading subResults iterPoss = some current) (hle : value ≤ (ofTuple current).value) :
    (∀ v ∈ vs, v.value = (ofTuple v.tuple).value) ↔ value = (ofTuple current).value ∧
      ∀ n, n + 1 < (remaining subResults iterPoss).length →
        StepBelow m subResults ((advance subResults)^[n] iterPoss) := by
  induction h generalizing current with
  | last hrem _ =>
    rw [reading_of_remaining hrange hrem] at hread
    obtain rfl := Option.some.inj hread
    simp [hrem]
  | @next iterPoss value _ next rest _ vs hrem _ _ ih =>
    have hread' := reading_of_remaining hrange hrem
    rw [hread'] at hread
    obtain rfl := Option.some.inj hread
    have hrem' := remaining_advance hrange hrem
    rw [if_neg (List.cons_ne_nil _ _)] at hrem'
    have hnext := reading_of_remaining hrange.advance hrem'
    have hstep := exchanges_step hrange hval hread' hnext 1
    rw [one_mul, one_mul] at hstep
    have ih := ih hrange.advance hnext (hstep.foldl_mulMod_le m hle)
    rw [List.forall_mem_cons, ih, hrem, hrem']
    have hvalue : updateValue (mulMod m) false subResults iterPoss value = (ofTuple next).value ↔ _ :=
      hstep.foldl_mulMod_eq_iff hm hle
    rw [hvalue]
    constructor
    · rintro ⟨heq, ⟨-, hbelow⟩, hlater⟩
      refine ⟨heq, fun n hn => ?_⟩
      cases n with
      | zero =>
        intro current hread
        obtain rfl := Option.some.inj (hread'.symm.trans hread)
        exact hbelow
      | succ n => exact hlater n (by simpa using hn)
    · rintro ⟨heq, hall⟩
      refine ⟨heq, ⟨heq, hall 0 (by simp) _ hread'⟩, fun n hn => ?_⟩
      exact hall (n + 1) (by simpa using hn)

theorem foldl_mulMod {l : List Nat} (hl : ∀ n ∈ l, n ≠ 0) {value : Nat} (h : value * l.prod < m) :
    l.foldl (mulMod m) value = value * l.prod := by
  induction l generalizing value with
  | nil => exact (mul_one value).symm
  | cons n l ih =>
    have hprod : 0 < l.prod :=
      List.prod_pos fun k hk => Nat.pos_of_ne_zero (hl k (List.mem_cons_of_mem _ hk))
    rw [List.prod_cons, ← mul_assoc] at h ⊢
    have hlt : value * n < m := lt_of_le_of_lt (Nat.le_mul_of_pos_right _ hprod) h
    have hmul : mulMod m value n = value * n := Nat.mod_eq_of_lt hlt
    rw [List.foldl_cons, hmul, ih (fun k hk => hl k (List.mem_cons_of_mem _ hk)) h]

omit [Inhabited K] in
theorem value_of_forall₂_mem {tuple : List (Entry K)} (hval : ValuesOk false subResults)
    (hm : List.Forall₂ (· ∈ ·) tuple subResults) : ∀ n ∈ tuple.map Weighted.value, n ≠ 0 := by
  induction hm with
  | nil => simp
  | @cons e subResult tuple subResults he _ ih =>
    rw [List.map_cons, List.forall_mem_cons]
    exact ⟨hval rfl subResult List.mem_cons_self e he, ih hval.tail⟩

section Reported

variable {current : List (Entry K)} {rest : List (List (Entry K))}

theorem exists_visited (mul : Nat → Nat → Nat) (boolValued : Bool) (version : Version) (size : Nat)
    (mapping : List (List Nat)) (hrange : InRange subResults iterPoss)
    (hrem : remaining subResults iterPoss = current :: rest) (value : Nat) :
    ∃ vs, Visited mul boolValued version size subResults mapping iterPoss value vs := by
  have hkey : (List.replicate size (default : K)).length = size := List.length_replicate
  induction rest generalizing iterPoss current value with
  | nil => exact ⟨_, .last hrem hkey⟩
  | cons next rest ih =>
    have hrem' := remaining_advance hrange hrem
    rw [if_neg (List.cons_ne_nil _ _)] at hrem'
    obtain ⟨vs, hvs⟩ := ih hrange.advance hrem' (updateValue mul boolValued subResults iterPoss value)
    exact ⟨_, .next hrem hkey hvs⟩

/-- The rounds are those of the reported values. -/
theorem Visited.reported_eq {mul : Nat → Nat → Nat} {boolValued : Bool}
    (h : Visited mul boolValued version size subResults mapping iterPoss value vs)
    (hrange : InRange subResults iterPoss) :
    reportedFrom mul boolValued subResults (remaining subResults iterPoss) iterPoss value =
      vs.map fun v => ⟨v.tuple.map Weighted.key, v.value⟩ := by
  induction h with
  | last hrem _ => rw [hrem]; rfl
  | next hrem _ _ ih =>
    have hrem' := remaining_advance hrange hrem
    rw [if_neg (List.cons_ne_nil _ _)] at hrem'
    rw [hrem, reportedFrom, List.map_cons, ← ih hrange.advance, hrem']

theorem Visited.value_le (h : Visited (mulMod m) false version size subResults mapping iterPoss value vs)
    (hrange : InRange subResults iterPoss) (hval : ValuesOk false subResults)
    (hread : reading subResults iterPoss = some current) (hle : value ≤ (ofTuple current).value) :
    ∀ v ∈ vs, v.value ≤ (ofTuple v.tuple).value := by
  induction h generalizing current with
  | last hrem _ =>
    rw [reading_of_remaining hrange hrem] at hread
    obtain rfl := Option.some.inj hread
    simpa using hle
  | next hrem _ _ ih =>
    have hread' := reading_of_remaining hrange hrem
    rw [hread'] at hread
    obtain rfl := Option.some.inj hread
    have hrem' := remaining_advance hrange hrem
    rw [if_neg (List.cons_ne_nil _ _)] at hrem'
    have hnext := reading_of_remaining hrange.advance hrem'
    have hstep := exchanges_step hrange hval hread' hnext 1
    rw [one_mul, one_mul] at hstep
    exact List.forall_mem_cons.mpr ⟨hle, ih hrange.advance hnext (hstep.foldl_mulMod_le m hle)⟩

omit [Inhabited K] in
theorem startValue_le (m : Nat) (current : List (Entry K)) :
    startValue (mulMod m) false current ≤ (ofTuple current).value := by
  have hfold (l : List Nat) (value : Nat) : l.foldl (mulMod m) value ≤ value * l.prod := by
    induction l generalizing value with
    | nil => simp
    | cons n l ih =>
      refine (ih (mulMod m value n)).trans ?_
      rw [List.prod_cons, ← mul_assoc]
      exact Nat.mul_le_mul_right _ (Nat.mod_le _ _)
  have hstart := hfold (current.map Weighted.value) 1
  rwa [one_mul] at hstart

omit [Inhabited K] in
/-- All reported values are below the modulus. -/
theorem lt_of_mem_reportedFrom (hm : 0 < m) {tuples : List (List (Entry K))} (hvalue : value < m) :
    ∀ tuple ∈ reportedFrom (mulMod m) false subResults tuples iterPoss value, tuple.value < m := by
  induction tuples generalizing iterPoss value with
  | nil => simp [reportedFrom]
  | cons current rest ih =>
    rw [reportedFrom, List.forall_mem_cons]
    refine ⟨hvalue, ih ?_⟩
    have hfold (pairs : List (Nat × Nat)) (value : Nat) (hvalue : value < m) :
        pairs.foldl (exchange (mulMod m)) value < m := by
      induction pairs generalizing value with
      | nil => exact hvalue
      | cons pair pairs ih =>
        exact ih _ (lt_of_le_of_lt (Nat.div_le_self _ _) (Nat.mod_lt _ hm))
    exact hfold _ value hvalue

omit [Inhabited K] in
theorem lt_of_mem_reportedTuples (hm : 1 < m) :
    ∀ tuple ∈ reportedTuples (mulMod m) false subResults, tuple.value < m := by
  have hfold (l : List Nat) (value : Nat) (hvalue : value < m) : l.foldl (mulMod m) value < m := by
    induction l generalizing value with
    | nil => exact hvalue
    | cons n l ih => exact ih _ (Nat.mod_lt _ (by omega))
  exact lt_of_mem_reportedFrom (by omega) (hfold _ 1 hm)

theorem exists_visited_start (m size : Nat) (hne : ∀ subResult ∈ subResults, subResult ≠ []) :
    ∃ current vs, reading subResults (subResults.map fun _ => 0) = some current ∧
      current ∈ subResults.sections ∧
      Visited (mulMod m) false .query size subResults [] (subResults.map fun _ => 0)
        (startValue (mulMod m) false current) vs ∧
      reportedTuples (mulMod m) false subResults =
        (vs.map fun v => ⟨v.tuple.map Weighted.key, v.value⟩) ∧
      vs.map Visit.tuple = subResults.sections := by
  obtain ⟨current, rest, hsections⟩ := List.exists_cons_of_ne_nil (sections_ne_nil hne)
  have hrange := inRange_start hne
  have hrem := remaining_start hne
  obtain ⟨vs, hvs⟩ := exists_visited (mulMod m) false .query size [] hrange (hrem.trans hsections)
    (startValue (mulMod m) false current)
  have heq := hvs.reported_eq hrange
  rw [hrem] at heq
  refine ⟨current, vs, reading_of_remaining hrange (hrem.trans hsections),
    hsections ▸ List.mem_cons_self, hvs, ?_, (hvs.map_tuple hrange).trans hrem⟩
  rw [reportedTuples, ← heq, hsections]
  rfl

/-- What is reported are the tuples with values that are never too large. -/
theorem reportedTuples_le (m : Nat) (hne : ∀ subResult ∈ subResults, subResult ≠ [])
    (hval : ValuesOk false subResults) : List.Forall₂ (fun reported tuple =>
      reported.key = tuple.key ∧ reported.value ≤ tuple.value)
        (reportedTuples (mulMod m) false subResults) (tuples subResults) := by
  obtain ⟨current, vs, hread, -, hvs, hreported, htuples⟩ := exists_visited_start m 0 hne
  have hle := hvs.value_le (inRange_start hne) hval hread (startValue_le m current)
  rw [hreported, tuples_eq_map_sections, ← htuples, List.map_map, List.forall₂_map_left_iff,
    List.forall₂_map_right_iff, List.forall₂_same]
  exact fun v hv => ⟨rfl, hle v hv⟩

/-- What is reported is right if no product and no step to another one overflows. -/
theorem reportedTuples_eq_iff (hm : 1 < m) (hne : ∀ subResult ∈ subResults, subResult ≠ [])
    (hval : ValuesOk false subResults) : reportedTuples (mulMod m) false subResults = tuples subResults ↔
      (∀ tuple ∈ tuples subResults, tuple.value < m) ∧ NoOverflow m 1 subResults := by
  obtain ⟨current, vs, hread, hcurrent, hvs, hreported, htuples⟩ := exists_visited_start m 0 hne
  have hrange := inRange_start hne
  have hiff := hvs.values_iff hrange hval (by omega) hread (startValue_le m current)
  rw [remaining_start hne, ← stepsBelow_iff hne] at hiff
  have hequal : reportedTuples (mulMod m) false subResults = tuples subResults ↔
      ∀ v ∈ vs, v.value = (ofTuple v.tuple).value := by
    rw [hreported, tuples_eq_map_sections, ← htuples, List.map_map, List.map_inj_left]
    refine forall_congr' fun v => forall_congr' fun _ => ?_
    simp [ofTuple]
  constructor
  · intro heq
    refine ⟨fun tuple hm' => lt_of_mem_reportedTuples hm tuple (heq ▸ hm'), ?_⟩
    exact (hiff.mp (hequal.mp heq)).2.noOverflow hval hne
  · rintro ⟨hlt, hover⟩
    refine hequal.mpr (hiff.mpr ⟨?_, hover.stepsBelow hval⟩)
    have hnonzero := value_of_forall₂_mem hval (List.mem_sections.mp hcurrent)
    have hcurrent : ofTuple current ∈ tuples subResults := by
      rw [tuples_eq_map_sections]
      exact List.mem_map_of_mem hcurrent
    have hprod := foldl_mulMod (m := m) hnonzero (by rw [one_mul]; exact hlt _ hcurrent)
    rwa [one_mul] at hprod

end Reported

section Exact

variable {resultPoss : List (List Nat)} {excludedPos : Nat}

theorem subResultVec_ne_nil {subResult : List (Entry K)} (h : version = .einsum → subResult ≠ []) :
    version.subResultVec size subResult ≠ [] := by
  cases version with
  | einsum => exact h rfl
  | query =>
    rw [Version.subResultVec]
    by_cases hempty : subResult.isEmpty
    · rw [if_pos hempty]
      exact List.cons_ne_nil _ _
    · rw [if_neg hempty]
      simpa using hempty

theorem value_subResultVec {subResult : List (Entry K)} (h : ∀ e ∈ subResult, e.value ≠ 0)
    {e : Entry K} (he : e ∈ version.subResultVec size subResult) : e.value ≠ 0 := by
  cases version with
  | einsum => exact h e he
  | query =>
    rw [Version.subResultVec] at he
    by_cases hempty : subResult.isEmpty
    · rw [if_pos hempty] at he
      rw [List.mem_singleton.mp he]
      exact one_ne_zero
    · rw [if_neg hempty] at he
      exact h e he

/-- With 64 bits, the values are those of the tuples unless a step overflows. -/
theorem values_exact_iff (hne : version = .einsum → ∀ subResult ∈ subResults, subResult ≠ [])
    (hval : ∀ subResult ∈ subResults, ∀ e ∈ subResult, e.value ≠ 0)
    (hl : (resultPoss.eraseIdx excludedPos).length = subResults.length)
    (hbound : ∀ tuple ∈ (subResults.map (version.subResultVec size)).sections,
      (tuple.map Weighted.value).prod < 2 ^ 64)
    {r : FullCartesianResult K} (hr : Relation.ReflTransGen (Call (mulMod (2 ^ 64)) false version)
      (version.fullCartesianResult size subResults resultPoss excludedPos) r)
    {overwrite : Nat → List K → List K}
    (hover : ∀ round key, (overwrite round key).length = key.length) (key : List K) :
    ∃ vs, r.enumerate (mulMod (2 ^ 64)) false version overwrite key = some vs ∧
      vs.map Visit.tuple = (subResults.map (version.subResultVec size)).sections ∧
      ((∀ v ∈ vs, v.value = (v.tuple.map Weighted.value).prod) ↔
        NoOverflow (2 ^ 64) 1 (subResults.map (version.subResultVec size))) := by
  obtain ⟨hsub, hmapping⟩ := calls_frame hr
  have hsub : r.subResults = subResults.map (version.subResultVec size) := hsub
  have hmapping : r.resultMapping = resultPoss.eraseIdx excludedPos := hmapping
  have hne : ∀ s ∈ r.subResults, s ≠ [] := by
    rw [hsub, List.forall_mem_map]
    exact fun s hs => subResultVec_ne_nil fun hv => hne hv s hs
  have hval : ValuesOk false r.subResults := by
    intro _
    rw [hsub, List.forall_mem_map]
    exact fun s hs e he => value_subResultVec (hval s hs) he
  have hl : r.resultMapping.length = r.subResults.length := by
    rw [hmapping, hl, hsub, List.length_map]
  rw [← hsub] at hbound ⊢
  obtain ⟨current, rest, hsections⟩ := List.exists_cons_of_ne_nil (sections_ne_nil hne)
  have henumerate : Ensures (r.enumerate (mulMod (2 ^ 64)) false version overwrite key) _ :=
    enumerate_spec hne hl hover hsections rfl
  obtain ⟨vs, hvs, hvisited⟩ := henumerate
  have hrange := inRange_start hne
  have hrem := remaining_start hne
  have hread := reading_of_remaining hrange (hrem.trans hsections)
  have hcurrent : current ∈ r.subResults.sections := hsections ▸ List.mem_cons_self
  have hstart : startValue (mulMod (2 ^ 64)) false current = (ofTuple current).value := by
    have hnonzero := value_of_forall₂_mem hval (List.mem_sections.mp hcurrent)
    have hprod := foldl_mulMod hnonzero (by rw [one_mul]; exact hbound current hcurrent)
    rwa [one_mul] at hprod
  have hiff := hvisited.values_iff hrange hval (by decide) hread hstart.le
  rw [and_iff_right hstart, hrem, ← stepsBelow_iff hne] at hiff
  refine ⟨vs, hvs, (hvisited.map_tuple hrange).trans hrem, hiff.trans ⟨fun h => ?_, fun h => ?_⟩⟩
  · exact h.noOverflow hval hne
  · exact h.stepsBelow hval

theorem values_exact_iff_two :
    ∃ vs, (Version.einsum.fullCartesianResult 3 [[⟨[5], 2⟩, ⟨[6], 3⟩], [⟨[7], 1⟩, ⟨[8], 4⟩]]
        [[2], [0], [1]] 0).enumerate (mulMod (2 ^ 64)) false .einsum (fun _ key => key) [0, 0, 0] =
          some vs ∧
      vs.map Visit.tuple = ([[⟨[5], 2⟩, ⟨[6], 3⟩], [⟨[7], 1⟩, ⟨[8], 4⟩]].map
        (Version.einsum.subResultVec 3)).sections ∧
      ∀ v ∈ vs, v.value = (v.tuple.map Weighted.value).prod := by
  let subResults : List (List (Entry Nat)) := [[⟨[5], 2⟩, ⟨[6], 3⟩], [⟨[7], 1⟩, ⟨[8], 4⟩]]
  have hne : Version.einsum = .einsum → ∀ subResult ∈ subResults, subResult ≠ [] := by decide
  have hbound : ∀ tuple ∈ (subResults.map (Version.einsum.subResultVec 3)).sections,
      (tuple.map Weighted.value).prod < 2 ^ 64 := by decide
  have hl : ([[2], [0], [1]].eraseIdx 0 : List (List Nat)).length = subResults.length := rfl
  obtain ⟨vs, hvs, htuples, hiff⟩ := values_exact_iff hne (by decide) hl hbound .refl
    (fun (_ : Nat) key => rfl) [0, 0, 0]
  refine ⟨vs, hvs, htuples, hiff.mpr ⟨by decide, ?_⟩⟩
  rintro _ ⟨⟩ _ ⟨⟩
  refine ⟨by decide, by decide, ?_⟩
  rintro _ ⟨⟩ _ ⟨⟩
  exact ⟨by decide, trivial⟩

/-- The product 2 ^ 33 of both tuples fits into 64 bits, but the value becomes 0. -/
theorem value_wraps :
    (∀ tuple ∈ [[⟨[5], 2 ^ 33⟩, ⟨[6], 2 ^ 33⟩]].sections,
      (tuple.map (Weighted.value (β := List Nat))).prod < 2 ^ 64) ∧
    ∃ v, (Version.einsum.fullCartesianResult 1 [[⟨[5], 2 ^ 33⟩, ⟨[6], 2 ^ 33⟩]] [[], [0]] 0).enumerate
        (mulMod (2 ^ 64)) false .einsum (fun _ key => key) [0] =
          some [⟨[⟨[5], 2 ^ 33⟩], 2 ^ 33, [5]⟩, v] ∧
      v.tuple = [⟨[6], 2 ^ 33⟩] ∧ v.value = 0 := by
  refine ⟨by decide, ⟨[⟨[6], 2 ^ 33⟩], 0, [6]⟩, rfl, rfl, rfl⟩

end Exact

end FullCartesianResult

end Hypertrie
