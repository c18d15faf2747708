import Hypertrie.QueryUnion

/-! Values of type `bool`, as in the evaluation without duplicates: whatever an operator
yields for a union of conjunctions has the value true. -/

namespace Hypertrie

open UnorderedMap Weighted LabelledOperand Assignment FullCartesianResult

variable {M : Type → Type → Type} [UnorderedMap M] {K V D : Type}
variable [Inhabited K]

namespace Query

/-- The operator yields entries with the value true for conjunctions of a smaller measure than `n`,
and its single results are true or false. -/
structure GraphOperator.Flags (t : HypertrieTrait K V) (F : Nat → Finset (SingleEntry K V) → Prop)
    (ns : NodeStorage M K V) (projVars : List Label) (n : Nat) (sub : GraphOperator K V) : Prop where
  generator : ∀ (g : DirectedLabelledGraph) (operands : List (LabelledOperand K V)) (e : Entry K),
    Conjunction t F ns g operands projVars → measure operands < n → e.key.length = projVars.length →
    allResultDone projVars g = false →
    Ensures (sub.generator g (operands.map (·.hypertrie)) e) (fun res => ∀ e' ∈ res.1, e'.value = 1)
  singleResult : ∀ (g : DirectedLabelledGraph) (operands : List (LabelledOperand K V)) (e : Entry K),
    Conjunction t F ns g operands projVars → measure operands < n → e.key.length = projVars.length →
    allResultDone projVars g = true →
    Ensures (sub.singleResult g (operands.map (·.hypertrie)) e) (·.value ≤ 1)

section Operators

variable {t : HypertrieTrait K V} {F : Nat → Finset (SingleEntry K V) → Prop}
variable {ns : NodeStorage M K V} {c : Choices K V D} {n : Nat} {sub : GraphOperator K V}
variable {operands : List (LabelledOperand K V)} {projVars : List Label} {g : DirectedLabelledGraph}
variable {e : Entry K} {label : Label}

theorem eq_one_of_ne_zero {value : Nat} (h : value ≤ 1) (hne : value ≠ 0) : value = 1 := by
  omega

theorem GraphOperator.Flags.entries (hf : sub.Flags t F ns projVars n)
    (hc : Conjunction t F ns g operands projVars) (hn : measure operands < n)
    (hl : e.key.length = projVars.length) :
    Ensures (sub.entries projVars g (operands.map (·.hypertrie)) e)
      (fun res => ∀ e' ∈ res.1, e'.value = 1) := by
  rw [GraphOperator.entries]
  by_cases hd : allResultDone projVars g = true
  · rw [if_pos hd]
    apply Ensures.map
    refine (hf.singleResult g operands e hc hn hl hd).mono fun e' hle => ?_
    by_cases hv : e'.value ≠ 0
    · simpa [hv] using eq_one_of_ne_zero hle hv
    · simp [hv]
  · rw [if_neg hd]
    exact hf.generator g operands e hc hn hl (by simpa using hd)

variable [DecidableEq K] [DecidableEq V]

namespace JoinOperator

variable {items : List (K × List (ConstHypertrie K V))}

theorem generatorLoop_flags (hs : sub.Right t F ns true projVars n) (hf : sub.Flags t F ns projVars n)
    (hc : Conjunction t F ns g operands projVars) (hn : measure operands < n + 1)
    (hlabel : label ∈ labelSet operands) (hitems : ∀ item ∈ items, JoinItem t F ns operands label item)
    (hl : e.key.length = projVars.length) :
    Ensures (generatorLoop projVars sub (g.removeVarId label) (projectedVarPosition projVars label)
      items e) (fun res => ∀ e' ∈ res.1, e'.value = 1) := by
  induction items generalizing e with
  | nil => exact Ensures.pure (by simp)
  | cons item items ih =>
    obtain ⟨keyPart, subOperands⟩ := item
    obtain ⟨hi, hitems⟩ := List.forall_mem_cons.mp hitems
    have hsmaller := measure_afterJoins hc hlabel hi
    have hafter := hc.afterJoins hlabel hi
    obtain ⟨-, -, hhyp, -, -, -⟩ := hi.problem hc.problem hlabel
    obtain ⟨hl', -, -⟩ := writeProjected_spec (e := e) hc.problem hlabel hl keyPart
    have hsub := (hs.entries hafter (by omega) hl').and (hf.entries hafter (by omega) hl')
    rw [hhyp] at hsub
    rw [generatorLoop]
    refine Ensures.bind hsub ?_
    rintro ⟨out, e'⟩ ⟨⟨hagree, -⟩, hout⟩
    refine Ensures.bind (ih hitems (hagree.length.trans hl')) ?_
    rintro ⟨rest, e''⟩ hrest
    exact Ensures.pure (List.forall_mem_append.mpr ⟨hout, hrest⟩)

theorem singleLoop_flags (hs : sub.Right t F ns true projVars n) (hf : sub.Flags t F ns projVars n)
    (hc : Conjunction t F ns g operands projVars) (hn : measure operands < n + 1)
    (hlabel : label ∈ labelSet operands) (hd : allResultDone projVars g = true)
    (hitems : ∀ item ∈ items, JoinItem t F ns operands label item)
    (hl : e.key.length = projVars.length) :
    Ensures (singleLoop .exact true sub (g.removeVarId label) items 0 e) (·.value ≤ 1) := by
  induction items generalizing e with
  | nil => exact Ensures.pure (Nat.zero_le 1)
  | cons item items ih =>
    obtain ⟨keyPart, subOperands⟩ := item
    obtain ⟨hi, hitems⟩ := List.forall_mem_cons.mp hitems
    have hsmaller := measure_afterJoins hc hlabel hi
    have hafter := hc.afterJoins hlabel hi
    obtain ⟨-, -, hhyp, hset, -, -⟩ := hi.problem hc.problem hlabel
    have hdone : allResultDone projVars (g.removeVarId label) = true := by
      refine hafter.done_iff.mpr fun l hm hu => hc.done_iff.mp hd l hm ?_
      exact Finset.mem_of_mem_erase (hset ▸ hu)
    have hsub := (hs.singleResult _ _ e hafter (by omega) hl hdone).and
      (hf.singleResult _ _ e hafter (by omega) hl hdone)
    rw [hhyp] at hsub
    rw [singleLoop]
    refine Ensures.bind hsub ?_
    rintro e' ⟨⟨hkey, -⟩, hle⟩
    by_cases hv : e'.value ≠ 0
    · rw [if_pos hv, if_pos rfl]
      exact Ensures.pure hle
    · rw [if_neg hv]
      exact ih hitems (hkey ▸ hl)

variable [LT D] [DecidableLT D]

theorem generator_flags (hr : Readable t F ns) (hs : sub.Right t F ns true projVars n)
    (hf : sub.Flags t F ns projVars n) (hc : Conjunction t F ns g operands projVars)
    (hn : measure operands < n + 1) (hne : operands ≠ []) (hl : e.key.length = projVars.length) :
    Ensures (generator t ns c projVars sub g (operands.map (·.hypertrie)) e)
      (fun res => ∀ e' ∈ res.1, e'.value = 1) := by
  rw [generator]
  refine Ensures.bind (items_spec hr hc hne c) ?_
  rintro label ⟨hlabel, hitems⟩
  refine Ensures.bind hitems ?_
  rintro items ⟨-, -, hitems⟩
  exact generatorLoop_flags hs hf hc hn hlabel hitems ((hc.agree_clearEntry e).length.trans hl)

theorem singleResult_flags (hr : Readable t F ns) (hs : sub.Right t F ns true projVars n)
    (hf : sub.Flags t F ns projVars n) (hc : Conjunction t F ns g operands projVars)
    (hn : measure operands < n + 1) (hne : operands ≠ []) (hl : e.key.length = projVars.length)
    (hd : allResultDone projVars g = true) :
    Ensures (singleResult t ns c .exact true projVars sub g (operands.map (·.hypertrie)) e) (·.value ≤ 1) := by
  rw [singleResult, hc.clearEntry_of_done hd]
  refine Ensures.bind (items_spec hr hc hne c) ?_
  rintro label ⟨hlabel, hitems⟩
  refine Ensures.bind hitems ?_
  rintro items ⟨-, -, hitems⟩
  exact singleLoop_flags hs hf hc hn hlabel hd hitems hl

end JoinOperator

namespace CartesianOperator

omit [DecidableEq V]

variable {outs : List (List (Entry K))} {mapping : List (List Nat)} {poss : List Nat}

omit [DecidableEq K] in
theorem forEach_flags {iterated : Entry K} (hone : iterated.value = 1) (hne : ∀ out ∈ outs, out ≠ [])
    (hl : mapping.length = outs.length) (e : Entry K) :
    Ensures ((FullCartesianResult.new outs mapping).forEach (· * ·) true copyKey
      (productBody .exact poss iterated) e) (fun res => ∀ e' ∈ res.1, e'.value = 1) := by
  have hval : ValuesOk true outs := fun h => by cases h
  refine (forEach_spec (r := .new outs mapping) (Q := fun _ => True) (fun _ _ _ => trivial)
    (fun _ _ _ => trivial) hne hl hval trivial).mono ?_
  rintro ⟨out, e'⟩ ⟨-, hout⟩
  refine forall_mem_of_forall₂ hout fun tuple entry hentry => ?_
  obtain ⟨e, -, rfl⟩ := hentry
  show iterated.value * reported true tuple = 1
  rw [hone]
  rfl

omit [DecidableEq K] in
theorem iterate_flags {iteratedOut : List (Entry K)} (hone : ∀ iterated ∈ iteratedOut, iterated.value = 1)
    (hne : ∀ out ∈ outs, out ≠ []) (hl : mapping.length = outs.length) (e : Entry K) :
    Ensures (iterate .exact true poss (.new outs mapping) iteratedOut e)
      (fun res => ∀ e' ∈ res.1, e'.value = 1) := by
  induction iteratedOut generalizing e with
  | nil => exact Ensures.pure (by simp)
  | cons iterated iteratedOut ih =>
    obtain ⟨hhead, hone⟩ := List.forall_mem_cons.mp hone
    rw [iterate]
    refine Ensures.bind (forEach_flags hhead hne hl e) ?_
    rintro ⟨out, e'⟩ hout
    refine Ensures.bind (ih hone e') ?_
    rintro ⟨rest, e''⟩ hrest
    exact Ensures.pure (List.forall_mem_append.mpr ⟨hout, hrest⟩)

variable [Zero D] [LT D] [DecidableLT D]

theorem graphGenerator_flags (hs : sub.Right t F ns true projVars n) (hf : sub.Flags t F ns projVars n)
    (hc : Conjunction t F ns g operands projVars) (hn : measure operands < n + 1)
    (hlen : 1 < g.cartesianComponents.length) :
    Ensures (graphGenerator (M := M) c .exact true projVars sub false g (operands.map (·.hypertrie)) e)
      (fun res => ∀ e' ∈ res.1, e'.value = 1) := by
  obtain ⟨vs, ds, hperm, hprepare⟩ := prepare_spec (M := M) hs hc hn hlen c
  have hvs : vs ∈ g.cartesianComponents := hperm.mem_iff.mp List.mem_cons_self
  have hcomp := hc.component hvs
  have hsmaller := hc.measure_component hlen hvs
  have hgraph : componentGraph g (component g vs) = g.subgraph vs :=
    componentGraph_component fun v hv => (hc.lt_of_component hvs v hv).trans_le hc.problem.length
  rw [graphGenerator]
  refine Ensures.bind (hprepare _) ?_
  rintro _ ⟨subResults, hsub, rfl⟩
  cases subResults with
  | none => exact Ensures.pure (by simp)
  | some outs =>
    have hlength : (ds.map fun d => (component g d).resultPoss projVars).length = outs.length := by
      have hlength := hsub.length_eq
      rwa [List.length_map] at hlength ⊢
    by_cases hdone : (component g vs).allResultDone projVars = true
    · simp only [Option.map_some, if_pos hdone, single, componentOperator, hgraph]
      refine Ensures.bind (hf.singleResult _ _ _ hcomp (by omega) List.length_replicate hdone) ?_
      intro iterated hle
      by_cases hv : iterated.value ≠ 0
      · rw [if_pos hv]
        exact forEach_flags (eq_one_of_ne_zero hle hv) (ne_nil_precalculated hsub) hlength _
      · rw [if_neg hv]
        exact Ensures.pure (by simp)
    · have hnot : allResultDone projVars (g.subgraph vs) = false := (Bool.not_eq_true _).mp hdone
      simp only [Option.map_some, if_neg hdone, streamed, componentOperator, hgraph, Bool.false_and,
        Bool.false_eq_true, if_false]
      have hout : Ensures ((sub.generator (g.subgraph vs)
          ((componentOperands operands vs).map (·.hypertrie)) (subEntryArg projVars)).map Prod.fst)
          (fun out => ∀ iterated ∈ out, iterated.value = 1) :=
        Ensures.map (hf.generator _ _ _ hcomp (by omega) List.length_replicate hnot)
      refine Ensures.bind hout fun iteratedOut hone => ?_
      exact Ensures.bind (iterate_flags hone (ne_nil_precalculated hsub) hlength _)
        fun res hres => Ensures.pure hres

theorem graphSingleResult_flags (hs : sub.Right t F ns true projVars n)
    (hf : sub.Flags t F ns projVars n) (hc : Conjunction t F ns g operands projVars)
    (hn : measure operands < n + 1) (hlen : 1 < g.cartesianComponents.length)
    (hd : allResultDone projVars g = true) :
    Ensures (graphSingleResult (M := M) c .exact true projVars sub false g (operands.map (·.hypertrie)) e)
      (·.value ≤ 1) := by
  obtain ⟨vs, ds, hperm, hprepare⟩ := prepare_spec (M := M) hs hc hn hlen c
  have hvs : vs ∈ g.cartesianComponents := hperm.mem_iff.mp List.mem_cons_self
  have hcomp := hc.component hvs
  have hsmaller := hc.measure_component hlen hvs
  have hgraph : componentGraph g (component g vs) = g.subgraph vs :=
    componentGraph_component fun v hv => (hc.lt_of_component hvs v hv).trans_le hc.problem.length
  have hdone : allResultDone projVars (g.subgraph vs) = true := hcomp.done_iff.mpr fun l hl hm =>
    hc.done_iff.mp hd l hl (Conjunction.labelSet_componentOperands_subset operands vs hm)
  rw [graphSingleResult]
  refine Ensures.bind (hprepare _) ?_
  rintro _ ⟨subResults, -, rfl⟩
  cases subResults with
  | none => exact Ensures.pure (Nat.zero_le 1)
  | some outs =>
    simp only [Option.map_some, singleProduct, componentOperator, hgraph]
    refine Ensures.bind (hf.singleResult _ _ _ hcomp (by omega) List.length_replicate hdone) ?_
    exact fun iterated hle => Ensures.pure hle

end CartesianOperator

theorem ResolveOperator.generator_flags (hr : Readable t F ns) {o : LabelledOperand K V}
    (hc : Conjunction t F ns g [o] projVars) (hn : o.labels.Nodup) (hsub : ∀ l ∈ o.labels, l ∈ projVars)
    (hl : e.key.length = projVars.length) :
    Ensures (generator t ns projVars g [o.hypertrie] e) (fun res => ∀ e' ∈ res.1, e'.value = 1) := by
  have hv := hc.problem.valid o List.mem_cons_self
  have hdepth : 0 < o.hypertrie.depth := hv.held.depth_pos
  have hlabels : g.operandVarIds 0 = o.labels := by
    rw [DirectedLabelledGraph.operandVarIds, hc.varIds]
    rfl
  rw [generator]
  simp only [List.head?_cons, Option.bind_eq_bind, Option.bind_some, hlabels]
  refine Ensures.bind (ConstHypertrie.entries_spec hr hv.holds hdepth) fun entries hentries => ?_
  have hlength (entry) (hm : entry ∈ entries) : entry.key.length = o.labels.length :=
    (hv.holds.entrySet.length entry ((hentries.2 entry).mp hm)).trans hv.depth
  refine (generatorLoop_spec hn hsub hc.problem.nodup hlength
    ((hc.agree_clearEntry e).length.trans hl)).mono ?_
  rintro ⟨out, last⟩ ⟨-, rfl⟩
  exact List.forall_mem_map.mpr fun _ _ => rfl

omit [DecidableEq V] in
/-- The operator of a union yields entries with the value true. -/
theorem UnionOperator.generatorLoop_flags (hs : sub.Right t F ns true projVars n)
    (hf : sub.Flags t F ns projVars n) (hu : UnionQuery t F ns g operands projVars)
    {cs : List (List Nat)}
    (hcs : ∀ vs ∈ cs, vs ∈ g.unionComponents ∧ measure (componentOperands operands vs) < n)
    (hkey : e.key = unbound projVars) :
    Ensures (generatorLoop projVars sub (cs.map fun vs =>
        (g.subgraph vs, (componentOperands operands vs).map (·.hypertrie))) e)
      (fun res => ∀ e' ∈ res.1, e'.value = 1) := by
  induction cs generalizing e with
  | nil => exact Ensures.pure (by simp)
  | cons vs cs ih =>
    obtain ⟨⟨hin, hn⟩, hcs⟩ := List.forall_mem_cons.mp hcs
    have hcomp := hu.component hin
    have hl : e.key.length = projVars.length := by rw [hkey, unbound, List.length_replicate]
    rw [List.map_cons, generatorLoop]
    refine Ensures.bind ((hs.entries hcomp hn hl).and (hf.entries hcomp hn hl)) ?_
    rintro ⟨out, e'⟩ ⟨⟨hagree, -⟩, hout⟩
    rw [hkey] at hagree
    have hkey' := key_clearEntry_unbound hcomp.problem.nodup
      (fun l => hcomp.mem_operandsVarIdsSet) hagree
    refine Ensures.bind (ih hcs hkey') ?_
    rintro ⟨rest, e''⟩ hrest
    exact Ensures.pure (List.forall_mem_append.mpr ⟨hout, hrest⟩)

omit [DecidableEq V] in
theorem UnionOperator.singleLoop_flags (hs : sub.Right t F ns true projVars n)
    (hf : sub.Flags t F ns projVars n) (hu : UnionQuery t F ns g operands projVars)
    (hd : allResultDone projVars g = true) {cs : List (List Nat)}
    (hcs : ∀ vs ∈ cs, vs ∈ g.unionComponents ∧ measure (componentOperands operands vs) < n)
    (hl : e.key.length = projVars.length) :
    Ensures (singleLoop .exact true sub (cs.map fun vs =>
      (g.subgraph vs, (componentOperands operands vs).map (·.hypertrie))) 0 e) (·.value ≤ 1) := by
  induction cs generalizing e with
  | nil => exact Ensures.pure (Nat.zero_le 1)
  | cons vs cs ih =>
    obtain ⟨⟨hin, hn⟩, hcs⟩ := List.forall_mem_cons.mp hcs
    have hcomp := hu.component hin
    have hdone := hu.done_component hd hin
    rw [List.map_cons, singleLoop]
    refine Ensures.bind ((hs.singleResult _ _ e hcomp hn hl hdone).and
      (hf.singleResult _ _ e hcomp hn hl hdone)) ?_
    rintro e' ⟨⟨hkey, -⟩, hle⟩
    by_cases hv : e'.value ≠ 0
    · rw [if_pos hv, if_pos rfl]
      exact Ensures.pure hle
    · rw [if_neg hv]
      exact ih hcs (hkey ▸ hl)

variable [Zero D] [LT D] [DecidableLT D]

/-- The scheduled operators yield entries with the value true. -/
theorem getSubOperator_flags (hr : Readable t F ns) (c : Choices K V D) (projVars : List Label)
    (n : Nat) : (getSubOperator (M := M) t ns c .exact true projVars n).Flags t F ns projVars n := by
  induction n with
  | zero => exact ⟨fun _ _ _ _ hn => absurd hn (Nat.not_lt_zero _), fun _ _ _ _ hn =>
      absurd hn (Nat.not_lt_zero _)⟩
  | succ n ih =>
    have hs := getSubOperator_right (M := M) hr c true projVars n
    constructor
    case generator =>
      intro g operands e hc hn hl hd
      have hop := nextOp_spec hc
      have hnot : ¬ ∀ l ∈ projVars, l ∉ labelSet operands := fun h =>
        Bool.false_ne_true (hd.symm.trans (hc.done_iff.mpr h))
      simp only [getSubOperator, hc.blocks.optionalCartesian_eq]
      cases hop' : nextOp projVars g <;> rw [hop'] at hop
      case join =>
        cases hop with
        | join hne => exact JoinOperator.generator_flags hr hs ih hc hn hne hl
      case cartesian =>
        cases hop with
        | cartesian hlen => exact CartesianOperator.graphGenerator_flags hs ih hc hn hlen
      case resolve =>
        cases hop with
        | resolve hnodup hsub => exact ResolveOperator.generator_flags hr hc hnodup hsub hl
      case count =>
        cases hop with
        | count hnodup hno =>
          refine absurd (fun l hl hm => ?_) hnot
          rw [labelSet_singleton] at hm
          exact hno l (List.mem_toFinset.mp hm) hl
      case entryGenerator =>
        cases hop with
        | entryGenerator => exact absurd (fun l _ => Finset.notMem_empty l) hnot
      case leftJoin => cases hop
      case union => cases hop
    case singleResult =>
      intro g operands e hc hn hl hd
      have hop := nextOp_spec hc
      simp only [getSubOperator, hc.blocks.optionalCartesian_eq]
      cases hop' : nextOp projVars g <;> rw [hop'] at hop
      case join =>
        cases hop with
        | join hne => exact JoinOperator.singleResult_flags hr hs ih hc hn hne hl hd
      case cartesian =>
        cases hop with
        | cartesian hlen => exact CartesianOperator.graphSingleResult_flags hs ih hc hn hlen hd
      case resolve =>
        cases hop with
        | @resolve o hnodup hsub =>
          obtain ⟨l, hl⟩ := List.exists_mem_of_ne_nil _ (hc.problem.valid o List.mem_cons_self).labels
          refine absurd ?_ (hc.done_iff.mp hd l (hsub l hl))
          rw [labelSet_singleton]
          exact List.mem_toFinset.mpr hl
      case count => exact Ensures.pure le_rfl
      case entryGenerator => exact Ensures.pure le_rfl
      case leftJoin => cases hop
      case union => cases hop

theorem UnionQuery.generator_flags (hr : Readable t F ns) (hu : UnionQuery t F ns g operands projVars)
    (c : Choices K V D) (hd : allResultDone projVars g = false) (hkey : e.key = unbound projVars) :
    Ensures ((operatorOf (M := M) t ns c .exact true projVars g).generator g (operands.map (·.hypertrie)) e)
      (fun res => ∀ e' ∈ res.1, e'.value = 1) := by
  have hl : e.key.length = projVars.length := by rw [hkey, unbound, List.length_replicate]
  have hright := getSubOperator_right (M := M) hr c true projVars (measure operands)
  rw [operatorOf, hu.fuel_eq]
  by_cases hlen : 1 < g.unionComponents.length
  · simp only [getSubOperator, nextOp_union projVars hlen, UnionOperator.generator,
      UnionOperator.initUnion_eq hu, Option.bind_eq_bind, Option.bind_some]
    refine UnionOperator.generatorLoop_flags hright (getSubOperator_flags hr c projVars _) hu
      (fun vs hvs => ⟨hvs, hu.measure_component hlen hvs⟩) ?_
    refine key_clearEntry_unbound hu.problem.nodup (fun l => hu.mem_operandsVarIdsSet) ?_
    rw [hkey]
    exact .refl _ _ _
  · exact (getSubOperator_flags hr c projVars (measure operands + 1)).generator g operands e
      (hu.conjunction (by omega)) (Nat.lt_succ_self _) hl hd

theorem UnionQuery.singleResult_flags (hr : Readable t F ns)
    (hu : UnionQuery t F ns g operands projVars) (c : Choices K V D)
    (hd : allResultDone projVars g = true) (hl : e.key.length = projVars.length) :
    Ensures ((operatorOf (M := M) t ns c .exact true projVars g).singleResult g (operands.map (·.hypertrie)) e)
      (·.value ≤ 1) := by
  have hright := getSubOperator_right (M := M) hr c true projVars (measure operands)
  rw [operatorOf, hu.fuel_eq]
  by_cases hlen : 1 < g.unionComponents.length
  · simp only [getSubOperator, nextOp_union projVars hlen, UnionOperator.singleResult,
      UnionOperator.initUnion_eq hu, hu.clearEntry_of_done hd, Option.bind_eq_bind, Option.bind_some]
    exact UnionOperator.singleLoop_flags hright (getSubOperator_flags hr c projVars _) hu hd
      (fun vs hvs => ⟨hvs, hu.measure_component hlen hvs⟩) hl
  · exact (getSubOperator_flags hr c projVars (measure operands + 1)).singleResult g operands e
      (hu.conjunction (by omega)) (Nat.lt_succ_self _) hl hd

end Operators

end Query

end Hypertrie
