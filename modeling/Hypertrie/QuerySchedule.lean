import Hypertrie.QueryComponents

/-! The operators that are scheduled for a conjunction deliver its solutions. -/

namespace Hypertrie

open UnorderedMap Weighted LabelledOperand Assignment

variable {M : Type → Type → Type} [UnorderedMap M] {K V D : Type}
variable [DecidableEq V] [Inhabited K]

namespace Query

section Operators

variable {t : HypertrieTrait K V} {F : Nat → Finset (SingleEntry K V) → Prop}
variable {ns : NodeStorage M K V} {boolValued : Bool} {o : LabelledOperand K V} {projVars : List Label}
variable {labels : List Label} {g : DirectedLabelledGraph} {e : Entry K}

namespace ResolveOperator

omit [Inhabited K] in
theorem writeParts_eq (hr : projVars.Nodup) (hsub : ∀ l ∈ labels, l ∈ projVars) {parts : List K}
    (hl : parts.length = labels.length) (key : List K) : writeParts projVars labels parts key =
      some (writeKey (labels.map (projVars.idxOf ·)) key parts) := by
  induction labels generalizing parts key with
  | nil =>
    rw [List.length_eq_zero_iff.mp hl]
    rfl
  | cons label labels ih =>
    obtain ⟨hlabel, hsub⟩ := List.forall_mem_cons.mp hsub
    cases parts with
    | nil => cases hl
    | cons part parts =>
      rw [writeParts, projectedVarPosition_eq hr, if_pos hlabel]
      exact ih hsub (Nat.succ.inj hl) _

omit [DecidableEq V] in
theorem generatorLoop_spec (hn : o.labels.Nodup) (hsub : ∀ l ∈ o.labels, l ∈ projVars)
    (hr : projVars.Nodup) {entries : List (SingleEntry K V)}
    (hentries : ∀ entry ∈ entries, entry.key.length = o.labels.length)
    (hl : e.key.length = projVars.length) :
    Ensures (generatorLoop projVars o.labels entries e) (fun res =>
      Agree o.labels.toFinset projVars res.2.key e.key ∧ res.1 = entries.map fun entry =>
        ⟨fill o.labels.toFinset projVars e.key (assignmentOf o.labels entry.key), 1⟩) := by
  induction entries generalizing e with
  | nil => exact Ensures.pure ⟨.refl _ _ _, rfl⟩
  | cons entry entries ih =>
    obtain ⟨hlength, hentries⟩ := List.forall_mem_cons.mp hentries
    have hwrite := writeKey_labelPoss hn hsub hr hl (assignmentOf o.labels entry.key)
    rw [map_assignmentOf hn hlength] at hwrite
    have hagree : Agree o.labels.toFinset projVars
        (fill o.labels.toFinset projVars e.key (assignmentOf o.labels entry.key)) e.key :=
      ⟨(length_fill hl).trans hl.symm, fun σ => fill_of_subset (Finset.Subset.refl _) projVars e.key σ _⟩
    rw [generatorLoop, writeParts_eq hr hsub hlength, hwrite]
    simp only [Option.bind_eq_bind, Option.bind_some]
    refine Ensures.bind (ih (e := ⟨_, 1⟩) hentries (length_fill hl)) ?_
    rintro ⟨rest, last⟩ ⟨hlast, rfl⟩
    refine Ensures.pure ⟨hlast.trans hagree, ?_⟩
    rw [List.map_cons]
    simp only [hagree.fill]

variable [DecidableEq K]

theorem generator_spec (hr : Readable t F ns) (hc : Conjunction t F ns g [o] projVars)
    (hn : o.labels.Nodup) (hsub : ∀ l ∈ o.labels, l ∈ projVars) (hl : e.key.length = projVars.length) :
    Ensures (generator t ns projVars g [o.hypertrie] e) (Generates boolValued [o] projVars e) := by
  have hv := hc.problem.valid o List.mem_cons_self
  have hclear := hc.agree_clearEntry e
  have hdepth : 0 < o.hypertrie.depth := hv.held.depth_pos
  have hlabels : g.operandVarIds 0 = o.labels := by
    rw [DirectedLabelledGraph.operandVarIds, hc.varIds]
    rfl
  rw [generator]
  simp only [List.head?_cons, Option.bind_eq_bind, Option.bind_some, hlabels]
  refine Ensures.bind (ConstHypertrie.entries_spec hr hv.holds hdepth) fun entries hentries => ?_
  have hlength (entry) (hm : entry ∈ entries) : entry.key.length = o.labels.length :=
    (hv.holds.entrySet.length entry ((hentries.2 entry).mp hm)).trans hv.depth
  refine (generatorLoop_spec hn hsub hc.problem.nodup hlength (hclear.length.trans hl)).mono ?_
  rintro ⟨out, last⟩ ⟨hagree, hout⟩
  rw [labelSet_singleton] at hclear
  refine ⟨?_, ?_⟩
  · rw [labelSet_singleton]
    exact hagree.trans hclear
  · have hset : {entry | entry ∈ entries} = (o.entries : Set (SingleEntry K V)) := Set.ext hentries.2
    simp only at hout
    rw [hout, solutions_singleton hv hn, labelSet_singleton]
    refine (Lists.image (injOn_assignmentOf hv hn)).mpr ?_
    rw [← hset]
    exact (Lists.of_list hentries.1 _).congr fun entry _ => hclear.fill _

end ResolveOperator

end Operators

section Schedule

variable {t : HypertrieTrait K V} {F : Nat → Finset (SingleEntry K V) → Prop}
variable {ns : NodeStorage M K V} {operands : List (LabelledOperand K V)} {projVars : List Label}
variable {g : DirectedLabelledGraph}

/-- When an operator is scheduled for a conjunction. -/
inductive Scheduled (projVars : List Label) (g : DirectedLabelledGraph) :
    List (LabelledOperand K V) → Operation → Prop where
  | join {operands : List (LabelledOperand K V)} (hne : operands ≠ []) :
      Scheduled projVars g operands .join
  | cartesian {operands : List (LabelledOperand K V)} (hlen : 1 < g.cartesianComponents.length) :
      Scheduled projVars g operands .cartesian
  | resolve {o : LabelledOperand K V} (hn : o.labels.Nodup) (hsub : ∀ l ∈ o.labels, l ∈ projVars) :
      Scheduled projVars g [o] .resolve
  | count {o : LabelledOperand K V} (hn : o.labels.Nodup) (hno : ∀ l ∈ o.labels, l ∉ projVars) :
      Scheduled projVars g [o] .count
  | entryGenerator : Scheduled projVars g [] .entryGenerator

omit [DecidableEq V] in
theorem nextOp_spec (hc : Conjunction t F ns g operands projVars) :
    Scheduled projVars g operands (nextOp projVars g) := by
  rcases operands with _ | ⟨o, _ | ⟨o', operands⟩⟩
  · have hsize : g.size = 0 := hc.size_eq
    rw [nextOp, if_pos hsize]
    exact .entryGenerator
  · have hsize : g.size = 1 := hc.size_eq
    have hlabels : g.operandVarIds 0 = o.labels := by
      rw [DirectedLabelledGraph.operandVarIds, hc.varIds]
      rfl
    have hmem (l : Label) : l ∈ g.operandsVarIdsSet ↔ l ∈ o.labels := by
      rw [hc.mem_operandsVarIdsSet, labelSet_singleton, List.mem_toFinset]
    rw [nextOp, if_neg (by omega), if_pos hsize, hlabels, hc.length_operandsVarIdsSet, labelSet_singleton]
    by_cases hlen : o.labels.toFinset.card = o.labels.length
    · have hn := nodup_of_length_eq hlen.symm
      rw [if_pos hlen]
      by_cases hno : g.operandsVarIdsSet.all (!projVars.contains ·) = true
      · rw [if_pos hno]
        refine .count hn fun l hl hm => ?_
        have := List.all_eq_true.mp hno l ((hmem l).mpr hl)
        simp [hm] at this
      · rw [if_neg hno]
        by_cases hall : g.operandsVarIdsSet.all (projVars.contains ·) = true
        · rw [if_pos hall]
          refine .resolve hn fun l hl => ?_
          exact List.contains_iff_mem.mp (List.all_eq_true.mp hall l ((hmem l).mpr hl))
        · rw [if_neg hall]
          exact .join (List.cons_ne_nil _ _)
    · rw [if_neg hlen]
      exact .join (List.cons_ne_nil _ _)
  · have hsize : 1 < g.size := by
      rw [hc.size_eq, List.length_cons, List.length_cons]
      omega
    have hunion := hc.block.length_unionComponents
    have hisc : g.iscOperands.length = g.size := by
      rw [hc.block.iscOperands_eq]
      exact List.length_range
    rw [nextOp, if_neg (by omega), if_neg (by omega), if_neg (by omega)]
    by_cases hlen : g.cartesianComponents.length > 1
    · rw [if_pos hlen]
      exact .cartesian hlen
    · rw [if_neg hlen, if_neg (by omega)]
      exact .join (List.cons_ne_nil _ _)

variable [Zero D] [LT D] [DecidableLT D]
variable [DecidableEq K]

/-- The scheduled operators are right for conjunctions. -/
theorem getSubOperator_right (hr : Readable t F ns) (c : Choices K V D) (boolValued : Bool)
    (projVars : List Label) (n : Nat) :
    (getSubOperator (M := M) t ns c .exact boolValued projVars n).Right t F ns boolValued projVars n := by
  induction n with
  | zero => exact ⟨fun _ _ _ _ hn => absurd hn (Nat.not_lt_zero _), fun _ _ _ _ hn =>
      absurd hn (Nat.not_lt_zero _)⟩
  | succ n ih =>
    constructor
    case generator =>
      intro g operands e hc hn hl hd
      have hop := nextOp_spec hc
      have hnot : ¬ ∀ l ∈ projVars, l ∉ labelSet operands := fun h =>
        Bool.false_ne_true (hd.symm.trans (hc.done_iff.mpr h))
      simp only [getSubOperator, hc.block.toBlocks.optionalCartesian_eq]
      cases hop' : nextOp projVars g <;> rw [hop'] at hop
      case join =>
        cases hop with
        | join hne => exact JoinOperator.generator_spec hr ih hc hn hne hl
      case cartesian =>
        cases hop with
        | cartesian hlen => exact CartesianOperator.graphGenerator_spec ih hc hn hlen hl
      case resolve =>
        cases hop with
        | resolve hnodup hsub => exact ResolveOperator.generator_spec hr hc hnodup hsub hl
      case count =>
        cases hop with
        | count hnodup hno =>
          refine absurd (fun l hl hm => ?_) hnot
          rw [labelSet_singleton] at hm
          exact hno l (List.mem_toFinset.mp hm) hl
      case entryGenerator =>
        cases hop with
        | entryGenerator => exact absurd (fun l _ => Finset.notMem_empty l) hnot
      case leftJoin => cases hop
      case union => cases hop
    case singleResult =>
      intro g operands e hc hn hl hd
      have hop := nextOp_spec hc
      simp only [getSubOperator, hc.block.toBlocks.optionalCartesian_eq]
      cases hop' : nextOp projVars g <;> rw [hop'] at hop
      case join =>
        cases hop with
        | join hne => exact JoinOperator.singleResult_spec hr ih hc hn hne hl hd
      case cartesian =>
        cases hop with
        | cartesian hlen => exact CartesianOperator.graphSingleResult_spec ih hc hn hlen hd
      case resolve =>
        cases hop with
        | @resolve o hnodup hsub =>
          obtain ⟨l, hl⟩ := List.exists_mem_of_ne_nil _ (hc.problem.valid o List.mem_cons_self).labels
          refine absurd ?_ (hc.done_iff.mp hd l (hsub l hl))
          rw [labelSet_singleton]
          exact List.mem_toFinset.mpr hl
      case count =>
        cases hop with
        | count hnodup _ =>
          exact Hypertrie.CountOperator.singleResult_spec hr
            (hc.problem.valid _ List.mem_cons_self) hnodup
      case entryGenerator =>
        cases hop with
        | entryGenerator => exact Hypertrie.EntryGeneratorOperator.singleResult_spec boolValued e
      case leftJoin => cases hop
      case union => cases hop

end Schedule

end Query

end Hypertrie
