import Hypertrie.HashJoinSpec
import Hypertrie.OptionalHashJoin
import Hypertrie.Library.SlotWrites

/-! The optional hash join delivers the left join of its operands, as long as
the first joined operand has the key parts, and no place in the output is
shared. -/

namespace Hypertrie

open UnorderedMap

variable {M : Type → Type → Type} [UnorderedMap M] {K V : Type}
variable [DecidableEq K] [DecidableEq V] [Inhabited K]

namespace OptionalHashJoin

section Spec

open HashJoin (HaveDiagonals AllJoined placeholder)

variable {t : HypertrieTrait K V} {F : Nat → Finset (SingleEntry K V) → Prop}
variable {ns : NodeStorage M K V} {operands : List (JoinOperand K V)} {o : JoinOperand K V}
variable {nonOpt : List (Fin posTypeCount)} {js : List (JoinOperand K V × Nat)}
variable {ops : List (HashDiagonal K V)} {keyPart : K} {second : List (ConstHypertrie K V)}

theorem setup_spec (hr : Readable t F ns) (hv : ∀ o ∈ operands, o.Valid t F ns) (n : Nat)
    {st : Setup K V} (hout : st.outPos = n % posTypeCount) (hops : st.ops.length ≤ n) :
    Ensures (((operands.map (fun o => (o.hypertrie, o.positions))).zipIdx n).foldlM
        (addOperand t ns nonOpt) st)
      (fun st' => st'.posInOut = st.posInOut ++ (joined n operands).map slot ∧
        st'.resultDepths = st.resultDepths ++ (joined n operands).map (·.1.resultDepth) ∧
        st'.opsNonOptionalPositions =
          st.opsNonOptionalPositions ++ nonOptionalOps nonOpt st.ops.length (joined n operands) ∧
        st'.second = st.second ++ operands.map placeholder ∧
        ∃ ops, st'.ops = st.ops ++ ops ∧ HaveDiagonals t F ns (joined n operands) ops) := by
  induction operands generalizing st n with
  | nil =>
    exact Ensures.pure ⟨by simp [joined], by simp [joined], by simp [joined, nonOptionalOps],
      by simp, [], by simp, List.Forall₂.nil⟩
  | cons o operands ih =>
    have ho := hv o List.mem_cons_self
    have hrest : ∀ o' ∈ operands, o'.Valid t F ns := fun o' hm => hv o' (List.mem_cons_of_mem _ hm)
    have hinc : (st.outPos + 1) % posTypeCount = (n + 1) % posTypeCount := by
      rw [hout, Nat.mod_add_mod]
    rw [List.map_cons, List.zipIdx_cons, List.foldlM_cons, joined_cons, addOperand]
    by_cases hj : o.isJoined = true
    · have hlen : ¬ o.positions.length = 0 := (JoinOperand.isJoined_iff.mp hj).ne'
      obtain ⟨d, hnew, hd⟩ := ho.new_spec hr hj
      have hnew : HashDiagonal.new t ns o.hypertrie
          (.ofPositions o.hypertrie.depth o.positions) = some d := hnew
      simp only [if_neg hlen, hnew, if_pos hj, Option.bind_eq_bind, Option.bind_some]
      refine (ih hrest (n + 1) hinc (by simpa using hops)).mono ?_
      rintro st' ⟨hpos, hdep, hnon, hsec, ops, hops', hover⟩
      refine ⟨?_, ?_, ?_, ?_, d :: ops, ?_, List.Forall₂.cons hd hover⟩
      · rw [hpos, List.append_assoc, List.map_cons, slot, hout]
        rfl
      · rw [hdep, List.append_assoc, List.map_cons]
        rfl
      · rw [hnon, nonOptionalOps_cons, List.length_append, List.length_singleton]
        by_cases hn : isNonOptional nonOpt n = true
        · have hlt := isNonOptional_lt hn
          rw [if_pos hn, if_pos hn, List.append_assoc, Nat.add_sub_cancel,
            Nat.mod_eq_of_lt (hops.trans_lt hlt)]
          rfl
        · rw [if_neg hn, if_neg hn]
      · rw [hsec, List.append_assoc, List.map_cons, placeholder, if_pos hj]
        rfl
      · rw [hops', List.append_assoc]
        rfl
    · have hlen : o.positions.length = 0 := by
        have := mt JoinOperand.isJoined_iff.mpr hj
        omega
      simp only [if_pos hlen, if_neg hj, Option.bind_eq_bind, Option.bind_some]
      refine (ih hrest (n + 1) hinc (by simpa using hops.trans (Nat.le_succ n))).mono ?_
      rintro st' ⟨hpos, hdep, hnon, hsec, hops'⟩
      refine ⟨hpos, hdep, hnon, ?_, hops'⟩
      rw [hsec, List.append_assoc, List.map_cons, placeholder, if_neg hj]
      rfl

/-- What may be delivered for a joined operand: its slice, or an empty hypertrie if the slice is
empty. -/
def Result (t : HypertrieTrait K V) (F : Nat → Finset (SingleEntry K V) → Prop)
    (ns : NodeStorage M K V) (keyPart : K) (o : JoinOperand K V) (h : ConstHypertrie K V) : Prop :=
  if keyPart ∈ o.diagonalKeys then
    h.depth = o.resultDepth ∧ h.Holds t F ns (o.slice keyPart)
  else h.empty = true

omit [DecidableEq K] [DecidableEq V] [Inhabited K] in
/-- A set of entries of depth 0 has at most the value at the empty key. -/
theorem eq_singleton_of_valueAt_nil {T : Finset (SingleEntry K V)} {v : V} (hset : IsEntrySet t 0 T)
    (hne : T.Nonempty) (hv : ValueAt t T [] v) : v ≠ t.zero ∧ T = {t.makeEntry [] v} := by
  have hv0 := (valueAt_nil_ne_zero hset hv).mpr hne
  have hmem : ⟨[], v⟩ ∈ T := hv.resolve_right fun h => hv0 h.1
  refine ⟨hv0, Finset.eq_singleton_iff_unique_mem.mpr ?_⟩
  rw [t.makeEntry_of_ne_zero [] hv0]
  refine ⟨hmem, fun e he => hset.unique e he _ hmem ?_⟩
  exact List.length_eq_zero_iff.mp (hset.length e he)

theorem currentScalarAsTensor_spec {d : HashDiagonal K V} (h0 : o.resultDepth = 0)
    (hv : o.Valid t F ns) (hne : (o.slice keyPart).Nonempty)
    (he : o.Exposed t F ns keyPart d) : Ensures (d.currentScalarAsTensor t ns)
      (fun res => res.depth = 0 ∧ res.Holds t F ns (o.slice keyPart)) := by
  obtain ⟨-, value, hvalue, hholds⟩ := he
  have hset := hv.isEntrySet_slice keyPart
  rw [h0] at hholds hset
  rw [HashDiagonal.currentScalarAsTensor, HashDiagonal.currentScalar, hvalue]
  simp only [Option.bind_eq_bind, Option.bind_some]
  cases value with
  | node nodec => exact absurd hholds.1 (lt_irrefl 0)
  | singleEntry identifier entry => exact absurd hholds.1 (lt_irrefl 0)
  | value v =>
    obtain ⟨hv0, hT⟩ := eq_singleton_of_valueAt_nil hset hne hholds.2
    refine Ensures.pure ⟨rfl, ?_⟩
    rw [hT]
    refine ⟨hT ▸ hset, ?_, fun _ => ⟨v, rfl, ?_⟩, fun h => absurd h (lt_irrefl 0),
      fun h => absurd h (lt_irrefl 0), fun h => absurd h (lt_irrefl 0)⟩
    · simp only [if_neg hv0, ConstHypertrie.empty, ← HypertrieTrait.ident_singleton,
        ident_singleton_ne_seed]
      simp
    · rw [← hT]
      exact hholds.2

theorem currentResult_spec (hF : InPlay t F) {d : HashDiagonal K V} (hv : o.Valid t F ns)
    (hk : keyPart ∈ o.diagonalKeys) (hj : o.isJoined = true) (he : o.Exposed t F ns keyPart d) :
    Ensures (currentResult t ns d o.resultDepth) (Result t F ns keyPart o) := by
  rw [currentResult]
  by_cases h0 : o.resultDepth ≠ 0
  · rw [if_pos h0]
    refine (he.currentHypertrie_spec hF hv (Nat.pos_of_ne_zero h0)).mono fun h hh => ?_
    rw [Result, if_pos hk]
    exact hh
  · have h0 : o.resultDepth = 0 := not_not.mp h0
    rw [if_neg (not_not.mpr h0)]
    have hne := (hv.mem_diagonalKeys hj).mp hk
    refine (currentScalarAsTensor_spec h0 hv hne he).mono fun h hh => ?_
    rw [Result, if_pos hk, h0]
    exact hh

/-- The writes of a loop over these operands. -/
abbrev Written (t : HypertrieTrait K V) (F : Nat → Finset (SingleEntry K V) → Prop)
    (ns : NodeStorage M K V) (keyPart : K) (js : List (JoinOperand K V × Nat))
    (second second' : List (ConstHypertrie K V)) : Prop :=
  SlotWrites (fun j h => Result t F ns keyPart j.1 h) slot js second second'

/-- The loop writes for each operand until it misses a non-optional one. -/
theorem probeOthers_spec (hr : Readable t F ns) (hv : AllJoined t F ns js)
    (ho : HaveDiagonals t F ns js ops) {opsNonOpt : List Nat} {opPos : Nat}
    (hnon : ∀ (i : Nat) (j : JoinOperand K V × Nat), js[i]? = some j →
      (opsNonOpt.contains (opPos + i) = true ↔ isNonOptional nonOpt j.2 = true)) :
    Ensures (probeOthers t ns opsNonOpt keyPart opPos ops (js.map slot)
        (js.map (·.1.resultDepth)) second)
      (fun res => HaveDiagonals t F ns js res.2.1 ∧
        (res.1 = true ↔ ∀ j ∈ js, isNonOptional nonOpt j.2 = true → keyPart ∈ j.1.diagonalKeys) ∧
        ∃ done rest, js = done ++ rest ∧ Written t F ns keyPart done second res.2.2 ∧
          (res.1 = true → rest = [])) := by
  induction ho generalizing second opPos with
  | nil =>
    exact Ensures.pure ⟨List.Forall₂.nil, by simp, [], [], rfl, .nil, fun _ => rfl⟩
  | @cons j d js ops hd hrest ih =>
    have hj := hv j List.mem_cons_self
    have ih := fun second' => @ih second'
      (fun j' hm => hv j' (List.mem_cons_of_mem _ hm)) (opPos + 1) fun i j' hi => by
        have := hnon (i + 1) j' hi
        rwa [show opPos + (i + 1) = opPos + 1 + i by omega] at this
    have hstep : ∀ h, Result t F ns keyPart j.1 h →
        (isNonOptional nonOpt j.2 = true → keyPart ∈ j.1.diagonalKeys) → ∀ d',
        j.1.HasDiagonal t F ns d' → ∀ res : Bool × List (HashDiagonal K V) × List (ConstHypertrie K V),
        (HaveDiagonals t F ns js res.2.1 ∧
          (res.1 = true ↔ ∀ j ∈ js, isNonOptional nonOpt j.2 = true → keyPart ∈ j.1.diagonalKeys) ∧
          ∃ done rest, js = done ++ rest ∧
            Written t F ns keyPart done (second.set (slot j) h) res.2.2 ∧
            (res.1 = true → rest = [])) →
        HaveDiagonals t F ns (j :: js) (d' :: res.2.1) ∧
          (res.1 = true ↔ ∀ j' ∈ j :: js, isNonOptional nonOpt j'.2 = true →
            keyPart ∈ j'.1.diagonalKeys) ∧
          ∃ done rest, j :: js = done ++ rest ∧ Written t F ns keyPart done second res.2.2 ∧
            (res.1 = true → rest = []) := by
      rintro h hh hpass d' hd' res ⟨hops, hiff, done, rest, hjs, hwrites, hall⟩
      refine ⟨List.Forall₂.cons hd' hops, ?_, j :: done, rest, ?_, .cons hh hwrites, hall⟩
      · rw [hiff, List.forall_mem_cons]
        exact (and_iff_right hpass).symm
      · rw [hjs, List.cons_append]
    rw [List.map_cons, List.map_cons, probeOthers]
    refine Ensures.bind (hj.1.find_spec hr hj.2 hd keyPart) ?_
    rintro ⟨d', found⟩ ⟨hd', hiff, hexp⟩
    by_cases hf : found = true
    · have hk := hiff.mp hf
      simp only [if_pos hf]
      refine Ensures.bind (currentResult_spec hr.inPlay hj.1 hk hj.2 (hexp hf)) ?_
      intro h hh
      refine Ensures.bind (ih (second.set (slot j) h)) fun res hres => ?_
      exact Ensures.pure (hstep h hh (fun _ => hk) d' hd' res hres)
    · have hk : keyPart ∉ j.1.diagonalKeys := fun h => hf (hiff.mpr h)
      have hcontains := hnon 0 j rfl
      simp only [if_neg hf]
      by_cases hc : opsNonOpt.contains opPos = true
      · rw [if_pos hc]
        refine Ensures.pure ⟨List.Forall₂.cons hd' hrest, ?_, [], j :: js, rfl, .nil,
          fun h => Bool.noConfusion h⟩
        refine ⟨fun h => Bool.noConfusion h, fun h => ?_⟩
        exact absurd (h j List.mem_cons_self (hcontains.mp hc)) hk
      · rw [if_neg hc]
        have hempty : Result t F ns keyPart j.1 (.new 0) := by
          rw [Result, if_neg hk]
          simp [ConstHypertrie.new, ConstHypertrie.empty, RawIdentifier.isEmpty]
        refine Ensures.bind (ih (second.set (slot j) (.new 0))) fun res hres => ?_
        exact Ensures.pure (hstep _ hempty (fun hn => absurd (hcontains.mpr hn) hc) d' hd' res hres)

/-- What is delivered for an operand. -/
def Delivered (t : HypertrieTrait K V) (F : Nat → Finset (SingleEntry K V) → Prop)
    (ns : NodeStorage M K V) (keyPart : K) (o : JoinOperand K V) (h : ConstHypertrie K V) : Prop :=
  if o.isJoined then Result t F ns keyPart o h else h = o.hypertrie

/-- The key part is in the diagonals of all joined operands that are not optional. -/
def Common (nonOpt : List (Fin posTypeCount)) (operands : List (JoinOperand K V)) (keyPart : K) :
    Prop :=
  ∀ (i : Nat) (o : JoinOperand K V), operands[i]? = some o → o.isJoined = true →
    isNonOptional nonOpt i = true → keyPart ∈ o.diagonalKeys

/-- The key part is in the diagonal that is iterated. -/
def FirstHas (operands : List (JoinOperand K V)) (keyPart : K) : Prop :=
  ∀ o, operands.find? (·.isJoined) = some o → keyPart ∈ o.diagonalKeys

/-- A joined operand from position 256 on has no slice at the key part, so it empties another place
in the output. That place belongs to the first joined operand, or to one without a slice. -/
def SlotsFit (operands : List (JoinOperand K V)) (keyPart : K) : Prop :=
  ∀ (i : Nat) (o : JoinOperand K V), operands[i]? = some o → o.isJoined = true →
    posTypeCount ≤ i → keyPart ∉ o.diagonalKeys ∧
      ∃ o', operands[i % posTypeCount]? = some o' ∧ o'.isJoined = true ∧
        (keyPart ∈ o'.diagonalKeys → ∀ (i' : Nat) (o'' : JoinOperand K V), i' < i % posTypeCount →
          operands[i']? = some o'' → o''.isJoined = false)

/-- Places that no joined operand writes to are as they were. -/
structure Untouched (operands : List (JoinOperand K V)) (second : List (ConstHypertrie K V)) :
    Prop where
  length : second.length = operands.length
  kept : ∀ q, (∀ j ∈ joined 0 operands, slot j ≠ q) →
    second[q]? = (operands.map placeholder)[q]?

section Output

variable {first : JoinOperand K V × Nat} {rest : List (JoinOperand K V × Nat)}
variable {second' : List (ConstHypertrie K V)}

theorem Untouched.written (hu : Untouched operands second)
    (hw : Written t F ns keyPart js second second') (hsub : ∀ j ∈ js, j ∈ joined 0 operands) :
    Untouched operands second' := by
  refine ⟨hw.length_eq.trans hu.length, fun q hq => ?_⟩
  rw [hw.getElem?_of_not_written fun j hm => hq j (hsub j hm)]
  exact hu.kept q hq

omit [DecidableEq K] [DecidableEq V] [Inhabited K] in
theorem slot_lt (j : JoinOperand K V × Nat) : slot j < posTypeCount :=
  Nat.mod_lt _ (by decide)

omit [DecidableEq K] [DecidableEq V] [Inhabited K] in
theorem Untouched.far (hu : Untouched operands second) {j : JoinOperand K V × Nat}
    (hj : j ∈ joined 0 operands) (hfar : posTypeCount ≤ j.2) :
    second[j.2]? = some (.new 0) := by
  obtain ⟨hget, hjoined⟩ := mem_joined.mp hj
  rw [hu.kept j.2 fun j' _ he => absurd (he ▸ slot_lt j') hfar.not_gt, List.getElem?_map, hget,
    Option.map_some, placeholder, if_pos hjoined]

omit [DecidableEq K] [DecidableEq V] [Inhabited K] in
theorem empty_new : (ConstHypertrie.new 0 : ConstHypertrie K V).empty = true := by
  simp [ConstHypertrie.new, ConstHypertrie.empty, RawIdentifier.isEmpty]

/-- What is delivered for an operand with a slice is not empty. -/
theorem Result.not_empty {h : ConstHypertrie K V} (hv : o.Valid t F ns) (hj : o.isJoined = true)
    (hk : keyPart ∈ o.diagonalKeys) (hr : Result t F ns keyPart o h) : ¬ h.empty = true := by
  rw [Result, if_pos hk] at hr
  intro he
  exact ((hv.mem_diagonalKeys hj).mp hk).ne_empty (hr.2.empty_iff.mp he)

theorem Result.empty {h : ConstHypertrie K V} (hk : keyPart ∉ o.diagonalKeys)
    (hr : Result t F ns keyPart o h) : h.empty = true := by
  rwa [Result, if_neg hk] at hr

omit [DecidableEq K] [DecidableEq V] [Inhabited K] in
/-- Two joined operands with the same place: either they are the same, or one is from position
256 on. -/
theorem eq_of_slot {j j' : JoinOperand K V × Nat} (hj : j ∈ joined 0 operands)
    (hj' : j' ∈ joined 0 operands) (hlt : j.2 < posTypeCount) (hlt' : j'.2 < posTypeCount)
    (he : slot j = slot j') : j = j' := by
  rw [slot, slot, Nat.mod_eq_of_lt hlt, Nat.mod_eq_of_lt hlt'] at he
  have hget := (mem_joined.mp hj).1
  rw [he, (mem_joined.mp hj').1, Option.some.injEq] at hget
  exact Prod.ext hget.symm he

omit [DecidableEq K] [DecidableEq V] [Inhabited K] in
theorem first_le (hjs : joined 0 operands = first :: rest) {j : JoinOperand K V × Nat}
    (hj : j ∈ joined 0 operands) : first.2 ≤ j.2 := by
  have hpair := pairwise_joined 0 operands
  rw [hjs] at hj hpair
  rcases List.mem_cons.mp hj with rfl | hm
  · exact le_rfl
  · exact ((List.pairwise_cons.mp hpair).1 j hm).le

/-- The place of a joined operand is written last for the first one if that shares it, else for one
that is not before the operand. -/
theorem Untouched.lastWrite (hu : Untouched operands second)
    (hjs : joined 0 operands = first :: rest)
    (hw : Written t F ns keyPart (rest ++ [first]) second second') {j : JoinOperand K V × Nat}
    (hj : j ∈ joined 0 operands) (hlt : slot j < operands.length) :
    ∃ b ∈ joined 0 operands, slot b = slot j ∧ (slot first = slot j → b = first) ∧
      (slot first ≠ slot j → j.2 ≤ b.2) ∧
      ∃ h, second'[slot j]? = some h ∧ Result t F ns keyPart b.1 h := by
  rw [← hu.length] at hlt
  have hpair := pairwise_joined 0 operands
  rw [hjs] at hj hpair ⊢
  by_cases hs : slot first = slot j
  · obtain ⟨h, hh⟩ := hw.getElem?_of_last (fun _ hm => absurd hm List.not_mem_nil) (by rw [hs]; exact hlt)
    rw [hs] at hh
    exact ⟨first, List.mem_cons_self, hs, fun _ => rfl, fun hne => absurd hs hne, h, hh⟩
  · have hjrest : j ∈ rest := (List.mem_cons.mp hj).resolve_left fun he => hs (he ▸ rfl)
    obtain ⟨before, b, after, rfl, hb, hlast⟩ := SlotWrites.exists_last hjrest slot
    rw [List.append_assoc, List.cons_append] at hw
    obtain ⟨h, hh⟩ := hw.getElem?_of_last (fun c hc => by
      rcases List.mem_append.mp hc with hc | hc
      · exact hlast c hc
      · rw [List.mem_singleton.mp hc, hb]
        exact hs) (by rw [hb]; exact hlt)
    rw [hb] at hh
    refine ⟨b, by simp, hb, fun he => absurd he hs, fun _ => ?_, h, hh⟩
    rcases List.mem_append.mp hjrest with hm | hm
    · have hpair := List.pairwise_append.mp (List.pairwise_cons.mp hpair).2
      exact (hpair.2.2 j hm b List.mem_cons_self).le
    · rcases List.mem_cons.mp hm with rfl | hm
      · exact le_rfl
      · exact absurd hb.symm (hlast j hm)

/-- A place that only optional operands without a slice share is right. -/
theorem Untouched.result (hu : Untouched operands second)
    (hjs : joined 0 operands = first :: rest)
    (hw : Written t F ns keyPart (rest ++ [first]) second second')
    (hu' : Untouched operands second') (hfit : SlotsFit operands keyPart) {q : Nat}
    {h : ConstHypertrie K V} (hoj : (o, q) ∈ joined 0 operands) (hh : second'[q]? = some h) :
    Result t F ns keyPart o h := by
  obtain ⟨hget, hj⟩ := mem_joined.mp hoj
  have hget : operands[q]? = some o := hget
  by_cases hfar : posTypeCount ≤ q
  · rw [hu'.far hoj hfar, Option.some.injEq] at hh
    rw [Result, if_neg (hfit q o hget hj hfar).1, ← hh]
    exact empty_new
  have hlt : q < posTypeCount := Nat.lt_of_not_le hfar
  have hslot : slot (o, q) = q := Nat.mod_eq_of_lt hlt
  obtain ⟨b, hbm, hb, hbfirst, -, h', hh', hres⟩ := hu.lastWrite hjs hw hoj
    (by rw [hslot]; exact (List.getElem?_eq_some_iff.mp hget).1)
  rw [hslot] at hb hbfirst hh'
  obtain rfl : h = h' := Option.some.inj (hh.symm.trans hh')
  by_cases hbfar : posTypeCount ≤ b.2
  · obtain ⟨hbget, hbj⟩ := mem_joined.mp hbm
    obtain ⟨hbk, o', ho', -, hbefore⟩ := hfit b.2 b.1 hbget hbj hbfar
    have hmod : b.2 % posTypeCount = q := hb
    rw [hmod, hget, Option.some.injEq] at ho'
    rw [hmod, ← ho'] at hbefore
    rw [Result, if_neg]
    · exact hres.empty hbk
    · intro hk
      have hfm : first ∈ joined 0 operands := hjs ▸ List.mem_cons_self
      obtain ⟨hfget, hfj⟩ := mem_joined.mp hfm
      have hle : first.2 ≤ q := first_le hjs hoj
      have hnot : ¬ first.2 < q := fun hlt => by
        rw [hbefore hk _ _ hlt hfget] at hfj
        cases hfj
      have hslotf : slot first = q := by
        rw [slot, Nat.mod_eq_of_lt (hle.trans_lt hlt)]
        omega
      rw [hbfirst hslotf] at hbfar
      omega
  · have := eq_of_slot hbm hoj (Nat.lt_of_not_le hbfar) hlt (hb.trans hslot.symm)
    rw [this] at hres
    exact hres

/-- The place of an operand that is not joined is not written to. -/
theorem SlotsFit.slot_ne (hfit : SlotsFit operands keyPart) {q : Nat}
    (hget : operands[q]? = some o) (hj : o.isJoined = false) :
    ∀ j ∈ joined 0 operands, slot j ≠ q := by
  intro j hm he
  obtain ⟨hjget, hjoined⟩ := mem_joined.mp hm
  by_cases hfar : posTypeCount ≤ j.2
  · obtain ⟨-, o', ho', hjo', -⟩ := hfit j.2 j.1 hjget hjoined hfar
    rw [show j.2 % posTypeCount = q from he, hget, Option.some.injEq] at ho'
    rw [← ho', hj] at hjo'
    cases hjo'
  · rw [slot, Nat.mod_eq_of_lt (Nat.lt_of_not_le hfar)] at he
    rw [he, hget, Option.some.injEq] at hjget
    rw [← hjget, hj] at hjoined
    cases hjoined

theorem Untouched.delivered (hu : Untouched operands second)
    (hjs : joined 0 operands = first :: rest)
    (hw : Written t F ns keyPart (rest ++ [first]) second second')
    (hu' : Untouched operands second') (hfit : SlotsFit operands keyPart) :
    List.Forall₂ (Delivered t F ns keyPart) operands second' := by
  apply List.forall₂_iff_get.mpr
  refine ⟨hu'.length.symm, fun q hq hq' => ?_⟩
  have hget : operands[q]? = some operands[q] := List.getElem?_eq_getElem hq
  have hget' : second'[q]? = some second'[q] := List.getElem?_eq_getElem hq'
  rw [List.get_eq_getElem, List.get_eq_getElem, Delivered]
  cases hj : operands[q].isJoined with
  | false =>
    have hsame := hu'.kept q (hfit.slot_ne hget hj)
    rw [hget', List.getElem?_map, hget, Option.map_some, placeholder, if_neg (by simp [hj]),
      Option.some.injEq] at hsame
    rw [if_neg (by simp)]
    exact hsame
  | true =>
    rw [if_pos rfl]
    exact hu.result hjs hw hu' hfit (mem_joined.mpr ⟨hget, hj⟩) hget'

/-- No joined operand from position 256 on is delivered with a slice. -/
theorem Untouched.no_far_slice (hv : ∀ o ∈ operands, o.Valid t F ns)
    (hu' : Untouched operands second') (hdel : ∀ (q : Nat) (o : JoinOperand K V)
      (h : ConstHypertrie K V), operands[q]? = some o → second'[q]? = some h →
      Delivered t F ns keyPart o h) {j : JoinOperand K V × Nat} (hj : j ∈ joined 0 operands)
    (hfar : posTypeCount ≤ j.2) : keyPart ∉ j.1.diagonalKeys := by
  intro hk
  obtain ⟨hget, hjoined⟩ := mem_joined.mp hj
  have hd := hdel _ _ _ hget (hu'.far hj hfar)
  rw [Delivered, if_pos hjoined] at hd
  exact hd.not_empty (hv _ (List.mem_of_getElem? hget)) hjoined hk empty_new

theorem Untouched.slotsFit (hv : ∀ o ∈ operands, o.Valid t F ns) (hu : Untouched operands second)
    (hjs : joined 0 operands = first :: rest)
    (hw : Written t F ns keyPart (rest ++ [first]) second second')
    (hu' : Untouched operands second')
    (hdel : List.Forall₂ (Delivered t F ns keyPart) operands second') :
    SlotsFit operands keyPart := by
  have hat : ∀ (q : Nat) (o : JoinOperand K V) (h : ConstHypertrie K V), operands[q]? = some o →
      second'[q]? = some h → Delivered t F ns keyPart o h := by
    intro q o h ho hh
    obtain ⟨hlt, rfl⟩ := List.getElem?_eq_some_iff.mp ho
    obtain ⟨hlt', rfl⟩ := List.getElem?_eq_some_iff.mp hh
    exact (List.forall₂_iff_get.mp hdel).2 q hlt hlt'
  intro i o ho hj hfar
  have hoj : (o, i) ∈ joined 0 operands := mem_joined.mpr ⟨ho, hj⟩
  have hno : keyPart ∉ (o, i).1.diagonalKeys := hu'.no_far_slice hv hat hoj hfar
  refine ⟨hno, ?_⟩
  have hq : slot (o, i) < operands.length :=
    (Nat.mod_le _ _).trans_lt (List.getElem?_eq_some_iff.mp ho).1
  obtain ⟨b, hbm, hb, hbfirst, hble, h, hh, hres⟩ := hu.lastWrite hjs hw hoj hq
  obtain ⟨o', hget⟩ : ∃ o', operands[slot (o, i)]? = some o' := ⟨_, List.getElem?_eq_getElem hq⟩
  have hd := hat _ _ _ hget hh
  have hvo' := hv o' (List.mem_of_getElem? hget)
  refine ⟨o', hget, ?_⟩
  by_cases hbfar : posTypeCount ≤ b.2
  · have hempty := hres.empty (hu'.no_far_slice hv hat hbm hbfar)
    cases hjo' : o'.isJoined with
    | true =>
      rw [Delivered, if_pos hjo'] at hd
      exact ⟨rfl, fun hk => absurd hempty (hd.not_empty hvo' hjo' hk)⟩
    | false =>
      rw [Delivered, if_neg (by simp [hjo'])] at hd
      rw [hd, hvo'.holds.empty_iff] at hempty
      exact absurd hempty hvo'.nonempty.ne_empty
  · obtain ⟨hbget, hbj⟩ := mem_joined.mp hbm
    have hbi : b.2 = slot (o, i) := (Nat.mod_eq_of_lt (Nat.lt_of_not_le hbfar)).symm.trans hb
    rw [hbi, hget, Option.some.injEq] at hbget
    refine ⟨hbget ▸ hbj, fun _ i' o'' hi' hget' => ?_⟩
    by_contra hne
    have hle : first.2 ≤ i' :=
      first_le hjs (mem_joined.mpr ⟨hget', by simpa using hne⟩ : (o'', i') ∈ joined 0 operands)
    have hi' : i' < slot (o, i) := hi'
    by_cases hs : slot first = slot (o, i)
    · rw [hbfirst hs] at hbi
      omega
    · have hib : i ≤ b.2 := hble hs
      omega

end Output

section Items

variable {first : JoinOperand K V × Nat} {rest : List (JoinOperand K V × Nat)}

/-- The hash join of the operands. -/
def ofOperands (operands : List (JoinOperand K V)) (nonOpt : List (Fin posTypeCount)) :
    OptionalHashJoin K V :=
  ⟨operands.map (·.hypertrie), operands.map (·.positions), nonOpt⟩

/-- What the iteration of a join has to deliver. -/
structure Exact (t : HypertrieTrait K V) (F : Nat → Finset (SingleEntry K V) → Prop)
    (ns : NodeStorage M K V) (operands : List (JoinOperand K V)) (nonOpt : List (Fin posTypeCount))
    (out : List (K × List (ConstHypertrie K V))) : Prop where
  nodup : (out.map Prod.fst).Nodup
  keys : ∀ k, k ∈ out.map Prod.fst ↔ Common nonOpt operands k
  values : ∀ item ∈ out, List.Forall₂ (Delivered t F ns item.1) operands item.2

/-- The key part is in the diagonals of the joined operands that are not optional, as far as these
are listed. -/
def HaveKeyPart (nonOpt : List (Fin posTypeCount)) (js : List (JoinOperand K V × Nat)) (keyPart : K) :
    Prop :=
  ∀ j ∈ js, isNonOptional nonOpt j.2 = true → keyPart ∈ j.1.diagonalKeys

theorem common_iff : Common nonOpt operands keyPart ↔
    HaveKeyPart nonOpt (joined 0 operands) keyPart := by
  constructor
  · intro h j hj
    obtain ⟨hget, hjoined⟩ := mem_joined.mp hj
    exact h j.2 j.1 hget hjoined
  · intro h i o hget hj
    exact h (o, i) (mem_joined.mpr ⟨hget, hj⟩)

theorem probe_spec (hr : Readable t F ns) (hv : ∀ o ∈ operands, o.Valid t F ns)
    (hjs : joined 0 operands = first :: rest) :
    JoinIterator.ProbeSpec t F ns first.1.hypertrie.depth first.1.entries first.1.mask
      (probe t ns (nonOptionalOps nonOpt 0 (first :: rest)) ((first :: rest).map slot)
        ((first :: rest).map (·.1.resultDepth)))
      (fun others second => HaveDiagonals t F ns rest others ∧ Untouched operands second)
      (fun k => decide (∀ j ∈ rest, isNonOptional nonOpt j.2 = true → k ∈ j.1.diagonalKeys))
      (fun k second => List.Forall₂ (Delivered t F ns k) operands second ↔
        SlotsFit operands k) := by
  intro smallest others second value keyPart hsm hvalue hholds hne hinv
  have hall : ∀ j ∈ joined 0 operands, j.1.Valid t F ns ∧ j.1.isJoined = true := by
    intro j hm
    obtain ⟨hget, hjoined⟩ := mem_joined.mp hm
    exact ⟨hv _ (List.mem_of_getElem? hget), hjoined⟩
  rw [hjs, List.forall_mem_cons] at hall
  have hmem : ∀ j, j ∈ rest ++ [first] ↔ j ∈ joined 0 operands := by
    intro j
    rw [hjs, List.mem_append, List.mem_singleton, List.mem_cons, or_comm]
  have hnon : ∀ (i : Nat) (j : JoinOperand K V × Nat), rest[i]? = some j →
      ((nonOptionalOps nonOpt 0 (first :: rest)).contains (1 + i) = true ↔
        isNonOptional nonOpt j.2 = true) := by
    intro i j hi
    rw [List.contains_iff_mem, mem_nonOptionalOps, Nat.sub_zero, Nat.add_comm 1 i,
      List.getElem?_cons_succ, hi]
    simp
  rw [probe, List.map_cons, List.map_cons, List.tail_cons, List.tail_cons]
  refine Ensures.bind (probeOthers_spec hr hall.2 hinv.1 hnon) ?_
  rintro ⟨found, others', second'⟩ ⟨hover, hiff, done, left, hrest, hw, hleft⟩
  have hsub : ∀ j ∈ done, j ∈ joined 0 operands := by
    intro j hm
    rw [hjs, hrest]
    exact List.mem_cons_of_mem _ (List.mem_append_left _ hm)
  cases found with
  | false =>
    have hnot : ¬ ∀ j ∈ rest, isNonOptional nonOpt j.2 = true → keyPart ∈ j.1.diagonalKeys :=
      fun h => Bool.noConfusion (hiff.mpr h)
    refine Ensures.pure ⟨(decide_eq_false hnot).symm, ⟨hover, hinv.2.written hw hsub⟩, fun h => ?_⟩
    exact absurd (of_decide_eq_true h) hnot
  | true =>
    obtain rfl : left = [] := hleft rfl
    rw [List.append_nil] at hrest
    subst hrest
    have hk : keyPart ∈ first.1.diagonalKeys := (hall.1.1.mem_diagonalKeys hall.1.2).mpr hne
    have hexp : first.1.Exposed t F ns keyPart smallest := by
      refine ⟨hsm, value, hvalue, ?_⟩
      rw [hall.1.1.resultDepth_eq]
      exact hholds
    simp only [if_pos, List.head?_cons, Option.bind_eq_bind, Option.bind_some]
    refine Ensures.bind (currentResult_spec hr.inPlay hall.1.1 hk hall.1.2 hexp) ?_
    intro h hh
    have hlast := hw.append (.singleton (a := first) hh)
    have hu' := hinv.2.written hlast fun j hm => (hmem j).mp hm
    refine Ensures.pure ⟨(decide_eq_true (hiff.mp rfl)).symm, ⟨hover, hu'⟩, fun _ => ?_⟩
    exact ⟨hinv.2.slotsFit hv hjs hlast hu', hinv.2.delivered hjs hlast hu'⟩

theorem items_spec (std : OrderedStdSort) (hr : Readable t F ns)
    (hv : ∀ o ∈ operands, o.Valid t F ns) (hjs : joined 0 operands = first :: rest) :
    Ensures ((ofOperands operands nonOpt).items t ns std) (fun out => (out.map Prod.fst).Nodup ∧
      (∀ k, k ∈ out.map Prod.fst ↔
        k ∈ first.1.diagonalKeys ∧ Common nonOpt operands k) ∧
      ∀ item ∈ out, List.Forall₂ (Delivered t F ns item.1) operands item.2 ↔
        SlotsFit operands item.1) := by
  have hzip : (operands.map (·.hypertrie)).zip (operands.map (·.positions)) =
      operands.map (fun o => (o.hypertrie, o.positions)) := List.zip_map'
  have hfirst : first ∈ joined 0 operands := hjs ▸ List.mem_cons_self
  obtain ⟨hfget, hfj⟩ := mem_joined.mp hfirst
  have hfv := hv _ (List.mem_of_getElem? hfget)
  rw [items, setup, ofOperands]
  simp only [hzip]
  refine Ensures.bind (setup_spec hr hv 0 rfl le_rfl) ?_
  rintro st ⟨hpos, hdep, hnon, hsec, ops, hops, hover⟩
  rw [List.nil_append] at hpos hdep hnon hsec hops
  rw [List.length_nil, hjs] at hnon
  rw [hjs] at hpos hdep hover
  subst hops
  have hlen : st.ops.length = (first :: rest).length := hover.length_eq.symm
  have horder : optimizeOperandOrder std st = some st := by
    refine optimizeOperandOrder_eq std ?_ ?_ ?_ ?_
    · rw [hnon]
      exact pairwise_nonOptionalOps 0
    · intro pos hm
      rw [hnon, mem_nonOptionalOps] at hm
      obtain ⟨-, j, hget, -⟩ := hm
      rw [hlen]
      exact (List.getElem?_eq_some_iff.mp hget).1
    · rw [hpos, List.length_map, hlen]
    · rw [hdep, List.length_map, hlen]
  rw [horder]
  simp only [Option.bind_some, Option.bind_eq_bind]
  obtain ⟨d, others, hd, hothers, hst⟩ := List.forall₂_cons_left_iff.mp hover
  have hu : Untouched operands st.second := by
    rw [hsec]
    exact ⟨List.length_map _, fun _ _ => rfl⟩
  rw [hst, hnon, hpos, hdep]
  refine (JoinIterator.items_spec hr hfv.holds.entrySet (JoinOperand.length_mask first.1)
    (hfv.count_pos hfj) (probe_spec hr hv hjs) hd ⟨hothers, hu⟩).mono ?_
  rintro out ⟨hnodup, hkeys, hvalues⟩
  refine ⟨hnodup, fun k => ?_, hvalues⟩
  rw [hkeys, common_iff, HaveKeyPart, hjs, List.forall_mem_cons, decide_eq_true_eq]
  constructor
  · rintro ⟨hk, hrest⟩
    exact ⟨hk, fun _ => hk, hrest⟩
  · rintro ⟨hk, -, hrest⟩
    exact ⟨hk, hrest⟩

end Items

end Spec

end OptionalHashJoin

section OptionalJoinProperty

open OptionalHashJoin

variable {t : HypertrieTrait K V} {ns : NodeStorage M K V} {roots : Multiset (Root K V)}
  {operands : List (JoinOperand K V)} {nonOpt : List (Fin posTypeCount)}

omit [DecidableEq K] [DecidableEq V] [Inhabited K] in
theorem find?_isJoined {first : JoinOperand K V × Nat} {rest : List (JoinOperand K V × Nat)}
    (hjs : joined 0 operands = first :: rest) :
    operands.find? (·.isJoined) = some first.1 := by
  have hfilter : (joined 0 operands).map Prod.fst = operands.filter (·.isJoined) := by
    have hmap := List.filter_map (p := fun o : JoinOperand K V => o.isJoined) (f := Prod.fst)
      (l := operands.zipIdx)
    rw [List.zipIdx_map_fst] at hmap
    rw [hmap]
    rfl
  rw [← List.head?_filter, ← hfilter, hjs]
  rfl

/-- The optional hash join is right exactly if each key part of all joined non-optional operands is
one of the first joined operand, which it is if that is not optional, and joined operands from
position 256 on do not spoil the output. -/
theorem optionalHashJoin_exact_iff (std : OrderedStdSort) (hc : Canonical t ns roots)
    (hn : NoCollision t roots) (hv : ∀ o ∈ operands, o.Valid t (Live roots) ns)
    (hj : ∃ (i : Nat) (o : JoinOperand K V), operands[i]? = some o ∧ o.isJoined = true ∧
      isNonOptional nonOpt i = true) :
    Ensures ((ofOperands operands nonOpt).items t ns std) (Exact t (Live roots) ns operands nonOpt) ↔
      ∀ k, Common nonOpt operands k → FirstHas operands k ∧ SlotsFit operands k := by
  obtain ⟨i, o, hget, hjoined, -⟩ := hj
  have hmem : (o, i) ∈ joined 0 operands := mem_joined.mpr ⟨hget, hjoined⟩
  obtain ⟨first, rest, hjs⟩ := List.exists_cons_of_ne_nil (List.ne_nil_of_mem hmem)
  have hfirst : ∀ k, FirstHas operands k ↔ k ∈ first.1.diagonalKeys := by
    intro k
    rw [FirstHas, find?_isJoined hjs]
    simp
  obtain ⟨out, hout, hnodup, hkeys, hvalues⟩ :=
    @items_spec _ _ _ _ _ _ _ _ _ _ _ nonOpt _ _ std (hc.readable hn) hv hjs
  constructor
  · rintro ⟨out', hout', hexact⟩ k hk
    obtain rfl : out = out' := Option.some.inj (hout.symm.trans hout')
    have hkout := (hexact.keys k).mpr hk
    obtain ⟨item, hitem, rfl⟩ := List.mem_map.mp hkout
    refine ⟨(hfirst _).mpr ((hkeys _).mp hkout).1, ?_⟩
    exact (hvalues item hitem).mp (hexact.values item hitem)
  · intro h
    refine ⟨out, hout, hnodup, fun k => ?_, fun item hm => ?_⟩
    · rw [hkeys]
      exact and_iff_right_of_imp fun hk => (hfirst k).mp (h k hk).1
    · have hcommon := ((hkeys item.1).mp (List.mem_map_of_mem hm)).2
      exact (hvalues item hm).mpr (h item.1 hcommon).2

/-- A non-optional operand that comes first, and an optional one without a slice. -/
theorem optionalHashJoin_exact_iff_two : ∃ ns : NodeStorage AssocMap (BitVec 64) Bool,
    Ensures ((ofOperands [sevenEight [0], sevenEight [1]] [⟨0, by decide⟩]).items defaultBoolTrait ns .merge)
      (Exact defaultBoolTrait (Live {⟨2, {⟨[7, 8], true⟩}⟩}) ns
        [sevenEight [0], sevenEight [1]] [⟨0, by decide⟩]) := by
  obtain ⟨ns, hc, hn, hv⟩ := exists_sevenEight
  refine ⟨ns, (optionalHashJoin_exact_iff .merge hc hn ?_ ⟨0, _, rfl, rfl, rfl⟩).mpr ?_⟩
  · intro o ho
    rcases List.mem_pair.mp ho with rfl | rfl
    · exact hv [0] (by decide) (by decide)
    · exact hv [1] (by decide) (by decide)
  · intro k hk
    refine ⟨fun o ho => ?_, fun i o ho _ hfar => ?_⟩
    · obtain rfl : sevenEight [0] = o := Option.some.inj ho
      exact hk 0 _ rfl rfl rfl
    · have hlt : i < 2 := (List.getElem?_eq_some_iff.mp ho).1
      have hfar : 256 ≤ i := hfar
      omega

/-- An optional operand that comes first hides the key part of the other one. -/
theorem optionalHashJoin_optional_first_wrong : ∃ ns : NodeStorage AssocMap (BitVec 64) Bool,
    Canonical defaultBoolTrait ns {⟨2, {⟨[7, 8], true⟩}⟩} ∧
    (∀ o ∈ [sevenEight [0], sevenEight [1]],
      o.Valid defaultBoolTrait (Live {⟨2, {⟨[7, 8], true⟩}⟩}) ns) ∧
    ∀ std, ¬ Ensures ((ofOperands [sevenEight [0], sevenEight [1]] [⟨1, by decide⟩]).items defaultBoolTrait ns std)
      (Exact defaultBoolTrait (Live {⟨2, {⟨[7, 8], true⟩}⟩}) ns
        [sevenEight [0], sevenEight [1]] [⟨1, by decide⟩]) := by
  obtain ⟨ns, hc, hn, hv⟩ := exists_sevenEight
  have hvalid : ∀ o ∈ [sevenEight [0], sevenEight [1]],
      o.Valid defaultBoolTrait (Live {⟨2, {⟨[7, 8], true⟩}⟩}) ns := by
    intro o ho
    rcases List.mem_pair.mp ho with rfl | rfl
    · exact hv [0] (by decide) (by decide)
    · exact hv [1] (by decide) (by decide)
  refine ⟨ns, hc, hvalid, fun std hex => ?_⟩
  obtain ⟨out, hout, hexact⟩ := hex
  have hjoined : joined 0 [sevenEight [0], sevenEight [1]] = [(sevenEight [0], 0), (sevenEight [1], 1)] :=
    rfl
  obtain ⟨out', hout', -, hkeys, -⟩ :=
    @items_spec _ _ _ _ _ _ _ _ _ _ _ [⟨1, by decide⟩] _ _ std (hc.readable hn) hvalid hjoined
  obtain rfl : out = out' := Option.some.inj (hout.symm.trans hout')
  have height : (8 : BitVec 64) ∈ (sevenEight [1]).diagonalKeys := by decide +kernel
  have hnot : (8 : BitVec 64) ∉ (sevenEight [0]).diagonalKeys := by decide +kernel
  have hcommon : Common [⟨1, by decide⟩] [sevenEight [0], sevenEight [1]] (8 : BitVec 64) := by
    rw [common_iff]
    intro j hj hnon
    rcases List.mem_pair.mp (show j ∈ [(sevenEight [0], 0), (sevenEight [1], 1)] from hj) with rfl | rfl
    · exact absurd hnon (by decide)
    · exact height
  exact hnot ((hkeys 8).mp ((hexact.keys 8).mpr hcommon)).1

end OptionalJoinProperty

end Hypertrie
