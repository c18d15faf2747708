import Hypertrie.EinsumSpec
import Hypertrie.QueryBlocks
import Hypertrie.QueryOperators

/-! Conjunctions of operands, and their join on one variable. What an operator has to
deliver for a conjunction is the same as in einsum, but for the entries, which have a
place for every projected variable. -/

namespace Hypertrie

open UnorderedMap Weighted LabelledOperand

variable {M : Type → Type → Type} [UnorderedMap M] {K V D : Type}
variable [Inhabited K]

namespace Query

/-- A union of conjunctions with an operand for each vertex. -/
structure UnionQuery (t : HypertrieTrait K V) (F : Nat → Finset (SingleEntry K V) → Prop)
    (ns : NodeStorage M K V) (g : DirectedLabelledGraph) (operands : List (LabelledOperand K V))
    (projVars : List Label) : Prop where
  problem : Problem t F ns operands projVars
  blocks : Blocks g
  varIds : g.varIds = operands.map (·.labels)

/-- A block with an operand for each of its vertices. -/
structure Conjunction (t : HypertrieTrait K V) (F : Nat → Finset (SingleEntry K V) → Prop)
    (ns : NodeStorage M K V) (g : DirectedLabelledGraph) (operands : List (LabelledOperand K V))
    (projVars : List Label) : Prop extends UnionQuery t F ns g operands projVars where
  connected : ∀ u < g.size, ∀ v < g.size, Components.Connected g.endpoints u v

/-- The variables and operands, which get fewer. -/
def measure (operands : List (LabelledOperand K V)) : Nat :=
  (labelSet operands).card + operands.length

/-- The operator is right for conjunctions of a smaller measure than `n`. -/
structure GraphOperator.Right [DecidableEq K]
    (t : HypertrieTrait K V) (F : Nat → Finset (SingleEntry K V) → Prop)
    (ns : NodeStorage M K V) (boolValued : Bool) (projVars : List Label) (n : Nat)
    (sub : GraphOperator K V) : Prop where
  generator : ∀ (g : DirectedLabelledGraph) (operands : List (LabelledOperand K V)) (e : Entry K),
    Conjunction t F ns g operands projVars → measure operands < n → e.key.length = projVars.length →
    allResultDone projVars g = false →
    Ensures (sub.generator g (operands.map (·.hypertrie)) e) (Generates boolValued operands projVars e)
  singleResult : ∀ (g : DirectedLabelledGraph) (operands : List (LabelledOperand K V)) (e : Entry K),
    Conjunction t F ns g operands projVars → measure operands < n → e.key.length = projVars.length →
    allResultDone projVars g = true →
    Ensures (sub.singleResult g (operands.map (·.hypertrie)) e) (CountsTo boolValued operands e)

section Positions

variable {projVars varIdsSet : List Label} {l : Label} {pos : Nat}

/-- A variable that is projected once has its place. -/
theorem projectedVarPosition_eq (hn : projVars.Nodup) (l : Label) :
    projectedVarPosition projVars l = if l ∈ projVars then some (projVars.idxOf l) else none := by
  by_cases hl : l ∈ projVars
  · obtain ⟨pos, hpos⟩ := exists_projectedVarPosition hl
    obtain ⟨hlt, hget⟩ := List.getElem?_eq_some_iff.mp (projectedVarPosition_spec hpos)
    rw [if_pos hl, hpos, ← hget, hn.idxOf_getElem pos hlt]
  · rw [if_neg hl]
    cases hpos : projectedVarPosition projVars l with
    | none => rfl
    | some pos => exact absurd (List.mem_of_getElem? (projectedVarPosition_spec hpos)) hl

/-- Only places of the variables are cleared. -/
theorem agree_clearEntry (e : Entry K) {U : Finset Label} (h : ∀ l ∈ varIdsSet, l ∈ U) :
    Agree U projVars (clearEntry projVars varIdsSet e).key e.key := by
  have hfold (poss : List Nat) (hposs : ∀ pos ∈ poss, pos ∈ usedEntryPoss projVars varIdsSet)
      (key : List K) : Agree U projVars (poss.foldl (fun key pos => key.set pos default) key) key := by
    induction poss generalizing key with
    | nil => exact .refl _ _ _
    | cons pos poss ih =>
      obtain ⟨l, hl, hpos⟩ := mem_usedEntryPoss.mp (hposs pos List.mem_cons_self)
      exact (ih (fun p hp => hposs p (List.mem_cons_of_mem _ hp)) _).trans
        (.set (projectedVarPosition_spec hpos) (h l hl) default)
  exact hfold _ (fun _ hpos => hpos) e.key

theorem clearEntry_of_done (h : ∀ l ∈ projVars, l ∉ varIdsSet) (e : Entry K) :
    clearEntry projVars varIdsSet e = e := by
  have hnil : usedEntryPoss projVars varIdsSet = [] := by
    refine List.eq_nil_iff_forall_not_mem.mpr fun pos hpos => ?_
    obtain ⟨l, hl, hpos⟩ := mem_usedEntryPoss.mp hpos
    exact h l (List.mem_of_getElem? (projectedVarPosition_spec hpos)) hl
  rw [clearEntry, hnil]
  rfl

end Positions

section Conjunctions

variable {t : HypertrieTrait K V} {F : Nat → Finset (SingleEntry K V) → Prop}
variable {ns : NodeStorage M K V} {c : Choices K V D} {boolValued : Bool} {n : Nat}
variable {sub : GraphOperator K V} {operands : List (LabelledOperand K V)} {projVars : List Label}
variable {g : DirectedLabelledGraph} {e : Entry K} {label : Label}

namespace UnionQuery

theorem size_eq (h : UnionQuery t F ns g operands projVars) : g.size = operands.length := by
  rw [DirectedLabelledGraph.size, h.varIds, List.length_map]

theorem mem_operandsVarIdsSet (h : UnionQuery t F ns g operands projVars) :
    label ∈ g.operandsVarIdsSet ↔ label ∈ labelSet operands := by
  rw [DirectedLabelledGraph.mem_operandsVarIdsSet, h.varIds, mem_labelSet]
  simp

theorem length_operandsVarIdsSet (h : UnionQuery t F ns g operands projVars) :
    g.operandsVarIdsSet.length = (labelSet operands).card := by
  rw [DirectedLabelledGraph.operandsVarIdsSet, length_flatSet, h.varIds]
  rfl

theorem done_iff (h : UnionQuery t F ns g operands projVars) :
    allResultDone projVars g = true ↔ ∀ l ∈ projVars, l ∉ labelSet operands := by
  simp only [allResultDone, List.all_eq_true, Bool.not_eq_true', ← Bool.not_eq_true,
    List.contains_iff_mem, h.mem_operandsVarIdsSet]

theorem agree_clearEntry (h : UnionQuery t F ns g operands projVars) (e : Entry K) :
    Agree (labelSet operands) projVars (clearEntry projVars g.operandsVarIdsSet e).key e.key :=
  Query.agree_clearEntry e fun _ hl => h.mem_operandsVarIdsSet.mp hl

theorem clearEntry_of_done (h : UnionQuery t F ns g operands projVars)
    (hd : allResultDone projVars g = true) (e : Entry K) :
    clearEntry projVars g.operandsVarIdsSet e = e :=
  Query.clearEntry_of_done (fun l hl hm => h.done_iff.mp hd l hl (h.mem_operandsVarIdsSet.mp hm)) e

end UnionQuery

theorem Conjunction.block (hc : Conjunction t F ns g operands projVars) : Block g :=
  ⟨hc.blocks, hc.connected⟩

theorem Conjunction.of_block (hp : Problem t F ns operands projVars) (hb : Block g)
    (hv : g.varIds = operands.map (·.labels)) : Conjunction t F ns g operands projVars :=
  ⟨⟨hp, hb.toBlocks, hv⟩, hb.connected⟩

variable [DecidableEq K]

/-- Whether there is a single entry or a generator, the entries list the solutions. -/
theorem GraphOperator.Right.entries (hs : sub.Right t F ns boolValued projVars n)
    (hc : Conjunction t F ns g operands projVars) (hn : measure operands < n)
    (hl : e.key.length = projVars.length) :
    Ensures (sub.entries projVars g (operands.map (·.hypertrie)) e)
      (Generates boolValued operands projVars e) := by
  rw [GraphOperator.entries]
  by_cases hd : allResultDone projVars g = true
  · rw [if_pos hd]
    apply Ensures.map
    refine (hs.singleResult g operands e hc hn hl hd).mono ?_
    rintro e' ⟨hkey, hcount⟩
    refine ⟨hkey ▸ .refl _ _ _, hcount.lists fun σ _ => ?_⟩
    rw [fill_eq_self hl (hc.done_iff.mp hd), hkey]
  · rw [if_neg hd]
    exact hs.generator g operands e hc hn hl (by simpa using hd)

omit [DecidableEq K] [Inhabited K] in
theorem CardinalityEstimation.getMinCardLabel_spec [LT D] [DecidableLT D] (c : Choices K V D)
    (projVars : List Label) (ops : List (ConstHypertrie K V)) (hne : g.operandsVarIdsSet ≠ []) :
    Ensures (getMinCardLabel c false projVars g ops) (· ∈ g.operandsVarIdsSet) := by
  rw [getMinCardLabel, if_neg Bool.false_ne_true]
  obtain ⟨first, rest, hset⟩ := List.exists_cons_of_ne_nil hne
  rw [hset]
  cases rest with
  | nil => exact Ensures.pure List.mem_cons_self
  | cons varId varIds =>
    exact Ensures.pure (minCardLoop_mem (fun _ hl => hl) List.mem_cons_self)

variable [DecidableEq V]

/-- The conjunction that is left for an item of the join. -/
theorem Conjunction.afterJoins (hc : Conjunction t F ns g operands projVars)
    (hlabel : label ∈ labelSet operands) {item : K × List (ConstHypertrie K V)}
    (hi : JoinItem t F ns operands label item) :
    Conjunction t F ns (g.removeVarId label) (LabelledOperand.afterJoins label item.1 operands item.2)
      projVars := by
  obtain ⟨hproblem, hsc, -, -, -⟩ := hi.problem hc.problem hlabel
  refine .of_block hproblem (hc.block.removeVarId label) ?_
  have hlabels := congrArg Subscript.operands hsc
  rw [varIds_removeVarId, hc.varIds]
  exact hlabels.symm

theorem measure_afterJoins (hc : Conjunction t F ns g operands projVars)
    (hlabel : label ∈ labelSet operands) {item : K × List (ConstHypertrie K V)}
    (hi : JoinItem t F ns operands label item) :
    measure (LabelledOperand.afterJoins label item.1 operands item.2) < measure operands := by
  obtain ⟨-, -, -, hset, -⟩ := hi.problem hc.problem hlabel
  have hcard := Finset.card_erase_lt_of_mem hlabel
  have hlength := length_afterJoins_le label item.1 operands item.2
  rw [measure, measure, hset]
  omega

omit [DecidableEq K] [DecidableEq V] in
/-- Writing a key part to the place of its variable. -/
theorem writeProjected_spec (hp : Problem t F ns operands projVars) (hlabel : label ∈ labelSet operands)
    (hl : e.key.length = projVars.length) (keyPart : K) :
    (writeProjected (projectedVarPosition projVars label) keyPart e).key.length = projVars.length ∧
    Agree (labelSet operands) projVars
      (writeProjected (projectedVarPosition projVars label) keyPart e).key e.key ∧
    ∀ σ, fill (labelSet operands) projVars e.key (Function.update σ label keyPart) =
      fill ((labelSet operands).erase label) projVars
        (writeProjected (projectedVarPosition projVars label) keyPart e).key σ := by
  have hkey : (writeProjected (projectedVarPosition projVars label) keyPart e).key =
      if label ∈ projVars then e.key.set (projVars.idxOf label) keyPart else e.key := by
    rw [projectedVarPosition_eq hp.nodup]
    by_cases hm : label ∈ projVars
    · have hlt := (List.idxOf_lt_length_of_mem hm).trans_le (Subscript.length_le_of_nodup hp.nodup)
      rw [if_pos hm, if_pos hm, writeProjected, Nat.mod_eq_of_lt hlt]
      rfl
    · rw [if_neg hm, if_neg hm]
      rfl
  rw [hkey]
  refine ⟨?_, ?_, fun σ => fill_update hlabel hp.nodup hl keyPart σ⟩
  · split <;> simp [hl]
  · by_cases hm : label ∈ projVars
    · rw [if_pos hm]
      exact .set (List.getElem?_idxOf hm) hlabel keyPart
    · rw [if_neg hm]
      exact .refl _ _ _

namespace JoinOperator

variable {items : List (K × List (ConstHypertrie K V))}

omit [DecidableEq K] [DecidableEq V] in
theorem solutionsAt_nil (operands : List (LabelledOperand K V)) (label : Label) :
    solutionsAt operands label ([] : List K) = ∅ := by
  simp [solutionsAt]

/-- The loop lists the solutions with the key parts of its items. -/
theorem generatorLoop_spec (hs : sub.Right t F ns boolValued projVars n)
    (hc : Conjunction t F ns g operands projVars) (hn : measure operands < n + 1)
    (hlabel : label ∈ labelSet operands) (hnodup : (items.map Prod.fst).Nodup)
    (hitems : ∀ item ∈ items, JoinItem t F ns operands label item)
    (hl : e.key.length = projVars.length) :
    Ensures (generatorLoop projVars sub (g.removeVarId label) (projectedVarPosition projVars label)
      items e) (fun res => Agree (labelSet operands) projVars res.2.key e.key ∧ Lists (!boolValued) res.1
        (solutionsAt operands label (items.map Prod.fst)) (fill (labelSet operands) projVars e.key)) := by
  induction items generalizing e with
  | nil =>
    rw [List.map_nil, solutionsAt_nil]
    exact Ensures.pure ⟨.refl _ _ _, .nil _⟩
  | cons item items ih =>
    obtain ⟨keyPart, subOperands⟩ := item
    rw [List.map_cons, List.nodup_cons] at hnodup
    have hi := hitems _ List.mem_cons_self
    have hsmaller := measure_afterJoins hc hlabel hi
    obtain ⟨-, -, hhyp, hset, hfiber, hinj⟩ := hi.problem hc.problem hlabel
    obtain ⟨hl', hagree, hfill⟩ := writeProjected_spec (e := e) hc.problem hlabel hl keyPart
    have hsub := hs.entries (hc.afterJoins hlabel hi) (by omega) hl'
    rw [hhyp] at hsub
    rw [generatorLoop]
    refine Ensures.bind hsub ?_
    rintro ⟨out, e'⟩ ⟨hagree', hout⟩
    rw [hset] at hagree' hout
    have hback : Agree (labelSet operands) projVars e'.key e.key :=
      (hagree'.mono (Finset.erase_subset _ _)).trans hagree
    refine Ensures.bind (ih hnodup.2 (fun item hm => hitems item (List.mem_cons_of_mem _ hm))
      (hback.length.trans hl)) ?_
    rintro ⟨rest, e''⟩ ⟨hagree'', hrest⟩
    refine Ensures.pure ⟨hagree''.trans hback, ?_⟩
    rw [List.map_cons, solutionsAt_cons]
    refine Lists.append ?_ (hrest.congr fun σ _ => hback.fill σ) (disjoint_solutionsAt hnodup.1)
    rw [hfiber]
    refine (Lists.image hinj).mpr (hout.congr fun σ _ => ?_)
    exact (hfill σ).symm

/-- The loop adds the number of solutions with the key parts of its items. -/
theorem singleLoop_spec (hs : sub.Right t F ns boolValued projVars n)
    (hc : Conjunction t F ns g operands projVars) (hn : measure operands < n + 1)
    (hlabel : label ∈ labelSet operands) (hd : allResultDone projVars g = true)
    (hnodup : (items.map Prod.fst).Nodup) (hitems : ∀ item ∈ items, JoinItem t F ns operands label item)
    (hl : e.key.length = projVars.length) {value : Nat} {A : Set (Label → K)}
    (hA : Counts (!boolValued) value A) (hbool : boolValued = true → A = ∅)
    (hdisj : Disjoint A (solutionsAt operands label (items.map Prod.fst))) :
    Ensures (singleLoop .exact boolValued sub (g.removeVarId label) items value e) (fun e' => e'.key = e.key ∧
      Counts (!boolValued) e'.value (A ∪ solutionsAt operands label (items.map Prod.fst))) := by
  induction items generalizing e value A with
  | nil =>
    rw [List.map_nil, solutionsAt_nil, Set.union_empty]
    exact Ensures.pure ⟨rfl, hA⟩
  | cons item items ih =>
    obtain ⟨keyPart, subOperands⟩ := item
    rw [List.map_cons, List.nodup_cons] at hnodup
    have hi := hitems _ List.mem_cons_self
    have hsmaller := measure_afterJoins hc hlabel hi
    have hafter := hc.afterJoins hlabel hi
    obtain ⟨-, -, hhyp, hset, hfiber, hinj⟩ := hi.problem hc.problem hlabel
    have hdone : allResultDone projVars (g.removeVarId label) = true := by
      refine hafter.done_iff.mpr fun l hm hu => hc.done_iff.mp hd l hm ?_
      exact Finset.mem_of_mem_erase (hset ▸ hu)
    have hsub := hs.singleResult _ _ e hafter (by omega) hl hdone
    rw [hhyp] at hsub
    rw [List.map_cons, solutionsAt_cons] at hdisj ⊢
    have hdisjHead := hdisj.mono_right Set.subset_union_left
    have hdisjTail := hdisj.mono_right Set.subset_union_right
    have hrec {e : Entry K} := @ih e hnodup.2 fun item hm => hitems item (List.mem_cons_of_mem _ hm)
    rw [singleLoop]
    refine Ensures.bind hsub ?_
    rintro e' ⟨hkey, hcount⟩
    have hfib : Counts (!boolValued) e'.value {σ ∈ solutions operands | σ label = keyPart} := by
      rw [hfiber]
      exact (Counts.image hinj).mpr hcount
    by_cases hv : e'.value ≠ 0
    · rw [if_pos hv]
      cases boolValued with
      | true =>
        refine Ensures.pure ⟨hkey, iff_of_true hv ?_, fun h => by cases h⟩
        exact (hfib.ne_zero_iff.mp hv).mono fun σ hσ => .inr (.inl hσ)
      | false =>
        have hdisjRest : Disjoint {σ ∈ solutions operands | σ label = keyPart}
            (solutionsAt operands label (items.map Prod.fst)) := disjoint_solutionsAt hnodup.1
        refine (hrec (hkey ▸ hl) (hA.union hfib hdisjHead) (fun h => by cases h)
          (hdisjTail.sup_left hdisjRest)).mono ?_
        rintro e'' ⟨hkey', hcount'⟩
        refine ⟨hkey'.trans hkey, ?_⟩
        rwa [← Set.union_assoc]
    · have hempty : {σ ∈ solutions operands | σ label = keyPart} = ∅ :=
        Set.not_nonempty_iff_eq_empty.mp fun h => hv (hfib.ne_zero_iff.mpr h)
      rw [if_neg hv, hempty, Set.empty_union]
      refine (hrec (hkey ▸ hl) hA hbool hdisjTail).mono ?_
      rintro e'' ⟨hkey', hcount'⟩
      exact ⟨hkey'.trans hkey, hcount'⟩

variable [LT D] [DecidableLT D]

/-- The variable that is joined on and what the hash join delivers. -/
theorem items_spec (hr : Readable t F ns) (hc : Conjunction t F ns g operands projVars)
    (hne : operands ≠ []) (c : Choices K V D) : Ensures
    (CardinalityEstimation.getMinCardLabel c false projVars g (operands.map (·.hypertrie))) (fun label =>
      label ∈ labelSet operands ∧ Ensures (HashJoin.items t ns c.std.toStdSort
        ⟨operands.map (·.hypertrie), g.varIdsPositionsInOperands label⟩) (fun items =>
          (items.map Prod.fst).Nodup ∧ (∀ k, k ∈ items.map Prod.fst ↔ Common label operands k) ∧
          ∀ item ∈ items, JoinItem t F ns operands label item)) := by
  obtain ⟨l, hl⟩ := labelSet_nonempty hc.problem hne
  have hset := List.ne_nil_of_mem (hc.mem_operandsVarIdsSet.mpr hl)
  refine (CardinalityEstimation.getMinCardLabel_spec c projVars _ hset).mono fun label hlabel => ?_
  have hlabel := hc.mem_operandsVarIdsSet.mp hlabel
  refine ⟨hlabel, ?_⟩
  have hpositions : g.varIdsPositionsInOperands label =
      (subscriptOf operands projVars).labelPossInOperands label := by
    rw [DirectedLabelledGraph.varIdsPositionsInOperands, hc.varIds]
    rfl
  rw [hpositions]
  exact Hypertrie.items_spec c.std.toStdSort hr hc.problem hlabel

theorem generator_spec (hr : Readable t F ns) (hs : sub.Right t F ns boolValued projVars n)
    (hc : Conjunction t F ns g operands projVars) (hn : measure operands < n + 1)
    (hne : operands ≠ []) (hl : e.key.length = projVars.length) :
    Ensures (generator t ns c projVars sub g (operands.map (·.hypertrie)) e)
      (Generates boolValued operands projVars e) := by
  have hclear := hc.agree_clearEntry e
  rw [generator]
  refine Ensures.bind (items_spec hr hc hne c) ?_
  rintro label ⟨hlabel, hitems⟩
  refine Ensures.bind hitems ?_
  rintro items ⟨hnodup, hkeys, hitems⟩
  refine (generatorLoop_spec hs hc hn hlabel hnodup hitems (hclear.length.trans hl)).mono ?_
  rintro ⟨out, e'⟩ ⟨hagree, hout⟩
  rw [solutionsAt_eq hc.problem.valid hkeys] at hout
  exact ⟨hagree.trans hclear, hout.congr fun σ _ => hclear.fill σ⟩

theorem singleResult_spec (hr : Readable t F ns) (hs : sub.Right t F ns boolValued projVars n)
    (hc : Conjunction t F ns g operands projVars) (hn : measure operands < n + 1)
    (hne : operands ≠ []) (hl : e.key.length = projVars.length)
    (hd : allResultDone projVars g = true) :
    Ensures (singleResult t ns c .exact boolValued projVars sub g (operands.map (·.hypertrie)) e)
      (CountsTo boolValued operands e) := by
  rw [singleResult, hc.clearEntry_of_done hd]
  refine Ensures.bind (items_spec hr hc hne c) ?_
  rintro label ⟨hlabel, hitems⟩
  refine Ensures.bind hitems ?_
  rintro items ⟨hnodup, hkeys, hitems⟩
  refine (singleLoop_spec hs hc hn hlabel hd hnodup hitems hl .zero (fun _ => rfl)
    (Set.empty_disjoint _)).mono ?_
  rintro e' ⟨hkey, hcount⟩
  rw [solutionsAt_eq hc.problem.valid hkeys, Set.empty_union] at hcount
  exact ⟨hkey, hcount⟩

end JoinOperator

end Conjunctions

end Query

end Hypertrie
