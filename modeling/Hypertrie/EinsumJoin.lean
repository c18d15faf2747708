import Hypertrie.Einsum
import Hypertrie.LabelledOperand

/-! What a sub-problem of einsum delivers, and the join of its operands on one label. -/

namespace Hypertrie

open UnorderedMap Weighted LabelledOperand

variable {M : Type → Type → Type} [UnorderedMap M] {K V : Type}
variable [DecidableEq K] [Inhabited K]

/-- The subscript of the operands. -/
def subscriptOf (operands : List (LabelledOperand K V)) (result : List Label) : Subscript :=
  ⟨operands.map (·.labels), result⟩

/-- A sub-problem: operands within the range of `OperandPos`, and labels of the result. -/
structure Problem (t : HypertrieTrait K V) (F : Nat → Finset (SingleEntry K V) → Prop)
    (ns : NodeStorage M K V) (operands : List (LabelledOperand K V)) (result : List Label) : Prop where
  valid : ∀ o ∈ operands, o.Valid t F ns
  length : operands.length ≤ posTypeCount
  nodup : result.Nodup

/-- The generator lists the solutions, read at the labels of the result. -/
def Generates (boolValued : Bool) (operands : List (LabelledOperand K V)) (result : List Label)
    (e : Entry K) (res : List (Entry K) × Entry K) : Prop :=
  Agree (labelSet operands) result res.2.key e.key ∧
    Lists (!boolValued) res.1 (solutions operands) (fill (labelSet operands) result e.key)

/-- The single result counts the solutions. -/
def CountsTo (boolValued : Bool) (operands : List (LabelledOperand K V)) (e e' : Entry K) : Prop :=
  e'.key = e.key ∧ Counts (!boolValued) e'.value (solutions operands)

/-- The operator is right for problems with fewer labels than `n`. -/
structure SubOperator.Right (t : HypertrieTrait K V) (F : Nat → Finset (SingleEntry K V) → Prop)
    (ns : NodeStorage M K V) (boolValued : Bool) (n : Nat) (sub : SubOperator K V) : Prop where
  generator : ∀ (operands : List (LabelledOperand K V)) (result : List Label) (e : Entry K),
    Problem t F ns operands result → (labelSet operands).card < n → e.key.length = result.length →
    (subscriptOf operands result).allResultDone = false →
    Ensures (sub.generator (subscriptOf operands result) (operands.map (·.hypertrie)) e)
      (Generates boolValued operands result e)
  singleResult : ∀ (operands : List (LabelledOperand K V)) (result : List Label) (e : Entry K),
    Problem t F ns operands result → (labelSet operands).card < n → e.key.length = result.length →
    (subscriptOf operands result).allResultDone = true →
    Ensures (sub.singleResult (subscriptOf operands result) (operands.map (·.hypertrie)) e)
      (CountsTo boolValued operands e)

section Spec

variable {t : HypertrieTrait K V} {F : Nat → Finset (SingleEntry K V) → Prop}
variable {ns : NodeStorage M K V} {c : EinsumChoices K V} {boolValued : Bool} {n : Nat}
variable {sub : SubOperator K V} {operands : List (LabelledOperand K V)} {result : List Label}
variable {e : Entry K} {label : Label} {keyPart : K}

omit [DecidableEq K] [Inhabited K] in
theorem operandsLabelSet_subscriptOf (operands : List (LabelledOperand K V)) (result : List Label) :
    (subscriptOf operands result).operandsLabelSet = labelSet operands := rfl

omit [DecidableEq K] [Inhabited K] in
theorem done_iff : (subscriptOf operands result).allResultDone = true ↔
    ∀ l ∈ result, l ∉ labelSet operands := Subscript.allResultDone_iff

omit [DecidableEq K] [Inhabited K] in
theorem fill_of_done (h : (subscriptOf operands result).allResultDone = true)
    (hl : e.key.length = result.length) (σ : Label → K) :
    fill (labelSet operands) result e.key σ = e.key :=
  fill_eq_self hl (done_iff.mp h)

/-- Whether there is a single entry or a generator, the entries list the solutions. -/
theorem SubOperator.Right.entries (hs : sub.Right t F ns boolValued n)
    (hp : Problem t F ns operands result) (hn : (labelSet operands).card < n)
    (hl : e.key.length = result.length) :
    Ensures (sub.entries (subscriptOf operands result) (operands.map (·.hypertrie)) e)
      (Generates boolValued operands result e) := by
  rw [SubOperator.entries]
  by_cases hd : (subscriptOf operands result).allResultDone = true
  · rw [if_pos hd]
    apply Ensures.map
    refine (hs.singleResult operands result e hp hn hl hd).mono ?_
    rintro e' ⟨hkey, hcount⟩
    refine ⟨hkey ▸ .refl _ _ _, hcount.lists fun σ _ => ?_⟩
    rw [fill_of_done hd hl, hkey]
  · rw [if_neg hd]
    exact hs.generator operands result e hp hn hl (by simpa using hd)

omit [DecidableEq K] in
theorem agree_clearUsedEntryPoss (e : Entry K) (operands : List (LabelledOperand K V))
    (result : List Label) : Agree (labelSet operands) result
      (clearUsedEntryPoss e (subscriptOf operands result)).key e.key := by
  have hfold (poss : List Nat) (h : ∀ pos ∈ poss, pos ∈ resultPoss (labelSet operands) result)
      (key : List K) : Agree (labelSet operands) result
        (poss.foldl (fun key pos => key.set pos default) key) key := by
    induction poss generalizing key with
    | nil => exact .refl _ _ _
    | cons pos poss ih =>
      obtain ⟨l, hu, hpos⟩ := mem_resultPoss.mp (h pos List.mem_cons_self)
      exact (ih (fun p hp => h p (List.mem_cons_of_mem _ hp)) _).trans (.set hpos hu default)
  exact hfold _ (fun _ h => h) e.key

omit [DecidableEq K] in
theorem clearUsedEntryPoss_of_done (hd : (subscriptOf operands result).allResultDone = true)
    (e : Entry K) : clearUsedEntryPoss e (subscriptOf operands result) = e := by
  have hnil : (subscriptOf operands result).usedResultPoss = [] := by
    refine List.eq_nil_iff_forall_not_mem.mpr fun pos hpos => ?_
    obtain ⟨l, hu, hl⟩ := mem_resultPoss.mp hpos
    exact done_iff.mp hd l (List.mem_of_getElem? hl) hu
  rw [clearUsedEntryPoss, hnil]
  rfl

variable [DecidableEq V]

/-- What the hash join on a label is given and delivers. -/
structure JoinItem (t : HypertrieTrait K V) (F : Nat → Finset (SingleEntry K V) → Prop)
    (ns : NodeStorage M K V) (operands : List (LabelledOperand K V)) (label : Label)
    (item : K × List (ConstHypertrie K V)) : Prop where
  common : Common label operands item.1
  delivered : List.Forall₂ (JoinOperand.Delivered t F ns item.1)
    (HashJoin.kept (operands.map (·.toJoin label))) item.2

/-- Operands without the label may be empty. -/
theorem items_exact (std : StdSort) (hr : Readable t F ns) (hv : ∀ o ∈ operands, o.Held t F ns)
    (hne : ∀ o ∈ operands, label ∈ o.labels → o.entries ≠ ∅) (hlen : operands.length ≤ posTypeCount)
    (hlabel : label ∈ labelSet operands) :
    Ensures (HashJoin.items t ns std
        ⟨operands.map (·.hypertrie), (subscriptOf operands result).labelPossInOperands label⟩)
      (HashJoin.Exact t F ns (operands.map (·.toJoin label))) := by
  have hjoin : (⟨operands.map (·.hypertrie), (subscriptOf operands result).labelPossInOperands label⟩ :
      HashJoin K V) = HashJoin.ofOperands (operands.map (·.toJoin label)) := by
    simp [HashJoin.ofOperands, Subscript.labelPossInOperands, subscriptOf, LabelledOperand.toJoin,
      Function.comp_def]
  have hvalid : ∀ o ∈ operands.map (·.toJoin label), o.isJoined = true → o.Valid t F ns :=
    List.forall_mem_map.mpr fun o ho hj =>
      ((hv o ho).valid (hne o ho (isJoined_iff.mp hj))).toJoin label
  have hj : ∃ o ∈ operands.map (·.toJoin label), o.isJoined = true := by
    obtain ⟨o, ho, hm⟩ := mem_labelSet.mp hlabel
    exact ⟨_, List.mem_map_of_mem ho, isJoined_iff.mpr hm⟩
  have hfit : HashJoin.PositionsFit (operands.map (·.toJoin label)) := by
    intro i o hi _
    have hlt := (List.getElem?_eq_some_iff.mp hi).1
    have hle := List.length_filter_le (·.isKept) (operands.map (·.toJoin label))
    rw [List.length_map] at hle
    exact (hlt.trans_le hle).trans_le hlen
  rw [hjoin]
  exact HashJoin.exact_of_fit std hr hvalid hj fun _ => hfit

theorem items_spec (std : StdSort) (hr : Readable t F ns) (hp : Problem t F ns operands result)
    (hlabel : label ∈ labelSet operands) :
    Ensures (HashJoin.items t ns std
        ⟨operands.map (·.hypertrie), (subscriptOf operands result).labelPossInOperands label⟩)
      (fun items => (items.map Prod.fst).Nodup ∧
        (∀ k, k ∈ items.map Prod.fst ↔ Common label operands k) ∧
        ∀ item ∈ items, JoinItem t F ns operands label item) := by
  refine (items_exact std hr (fun o ho => (hp.valid o ho).held)
    (fun o ho _ => (hp.valid o ho).nonempty.ne_empty) hp.length hlabel).mono ?_
  rintro items ⟨hnodup, hkeys, hvalues⟩
  have hcommon (k : K) : k ∈ items.map Prod.fst ↔ Common label operands k :=
    (hkeys k).trans (common_iff hp.valid).symm
  refine ⟨hnodup, hcommon, fun item hm => ⟨?_, hvalues item hm⟩⟩
  exact (hcommon item.1).mp (List.mem_map_of_mem hm)

omit [Inhabited K] in
theorem subscriptOf_afterJoins {keyPart : K} {hs : List (ConstHypertrie K V)}
    (hlab : (afterJoins label keyPart operands hs).map (·.labels) =
      ((operands.map (·.labels)).map (·.filter (· ≠ label))).filter (· ≠ [])) :
    subscriptOf (afterJoins label keyPart operands hs) result =
      (subscriptOf operands result).removeLabel label := by
  rw [subscriptOf, hlab]
  rfl

omit [Inhabited K] in
theorem labelSet_afterJoins {keyPart : K} {hs : List (ConstHypertrie K V)}
    (hlab : (afterJoins label keyPart operands hs).map (·.labels) =
      ((operands.map (·.labels)).map (·.filter (· ≠ label))).filter (· ≠ [])) :
    labelSet (afterJoins label keyPart operands hs) = (labelSet operands).erase label := by
  rw [← operandsLabelSet_subscriptOf _ [], subscriptOf_afterJoins hlab,
    Subscript.operandsLabelSet_removeLabel]
  rfl

omit [Inhabited K] in
theorem length_afterJoins_le (label : Label) (keyPart : K) (operands : List (LabelledOperand K V))
    (hs : List (ConstHypertrie K V)) :
    (afterJoins label keyPart operands hs).length ≤ operands.length := by
  rw [afterJoins, List.length_zipWith]
  exact (Nat.min_le_left _ _).trans (List.length_filter_le (·.isKept label) operands)

/-- The problem that is left for an item. -/
theorem JoinItem.problem {item : K × List (ConstHypertrie K V)} (hi : JoinItem t F ns operands label item)
    (hp : Problem t F ns operands result) (hlabel : label ∈ labelSet operands) :
    Problem t F ns (afterJoins label item.1 operands item.2) result ∧
    subscriptOf (afterJoins label item.1 operands item.2) result =
      (subscriptOf operands result).removeLabel label ∧
    (afterJoins label item.1 operands item.2).map (·.hypertrie) = item.2 ∧
    labelSet (afterJoins label item.1 operands item.2) = (labelSet operands).erase label ∧
    {σ ∈ solutions operands | σ label = item.1} = (fun σ => Function.update σ label item.1) ''
      solutions (afterJoins label item.1 operands item.2) ∧
    Set.InjOn (fun σ => Function.update σ label item.1)
      (solutions (afterJoins label item.1 operands item.2)) := by
  obtain ⟨hvalid, hhyp, hlab, hcon⟩ := afterJoins_spec hp.valid hi.common hi.delivered
  have hset := labelSet_afterJoins hlab
  refine ⟨⟨hvalid, (length_afterJoins_le ..).trans hp.length, hp.nodup⟩, subscriptOf_afterJoins hlab,
    hhyp, hset, ?_, ?_⟩
  · rw [LabelledOperand.solutions, Assignment.fiber_eq_image hlabel, LabelledOperand.solutions, hset,
      hcon]
  · rw [LabelledOperand.solutions, hset]
    exact Assignment.injOn_update item.1 _

/-- The entry after writing the key part to the position of a result label. -/
def setLabel (e : Entry K) (sc : Subscript) (label : Label) (keyPart : K) : Entry K :=
  if sc.isResultLabel label then e.setKey (e.key.set (sc.labelPosInResult label) keyPart) else e

omit [DecidableEq K] [DecidableEq V] in
theorem setLabel_spec (hp : Problem t F ns operands result) (hlabel : label ∈ labelSet operands)
    (hl : e.key.length = result.length) (keyPart : K) :
    (setLabel e (subscriptOf operands result) label keyPart).key.length = result.length ∧
    Agree (labelSet operands) result (setLabel e (subscriptOf operands result) label keyPart).key e.key ∧
    ∀ σ, fill (labelSet operands) result e.key (Function.update σ label keyPart) =
      fill ((labelSet operands).erase label) result
        (setLabel e (subscriptOf operands result) label keyPart).key σ := by
  have hiff : (subscriptOf operands result).isResultLabel label = true ↔ label ∈ result := by
    simp [Subscript.isResultLabel, Subscript.resultLabelSet, subscriptOf]
  have hkey : (setLabel e (subscriptOf operands result) label keyPart).key =
      if label ∈ result then e.key.set (result.idxOf label) keyPart else e.key := by
    by_cases hm : label ∈ result
    · rw [setLabel, if_pos (hiff.mpr hm), if_pos hm]
      rfl
    · rw [setLabel, if_neg fun h => hm (hiff.mp h), if_neg hm]
  rw [hkey]
  refine ⟨?_, ?_, fun σ => fill_update hlabel hp.nodup hl keyPart σ⟩
  · split <;> simp [hl]
  · by_cases hm : label ∈ result
    · rw [if_pos hm]
      exact .set (List.getElem?_idxOf hm) hlabel keyPart
    · rw [if_neg hm]
      exact .refl _ _ _

/-- The solutions whose value of the label is among the key parts. -/
def solutionsAt (operands : List (LabelledOperand K V)) (label : Label) (keyParts : List K) :
    Set (Label → K) := {σ ∈ solutions operands | σ label ∈ keyParts}

omit [DecidableEq V] in
theorem solutionsAt_cons (operands : List (LabelledOperand K V)) (label : Label) (k : K)
    (ks : List K) : solutionsAt operands label (k :: ks) =
      {σ ∈ solutions operands | σ label = k} ∪ solutionsAt operands label ks := by
  ext σ
  simp only [solutionsAt, List.mem_cons, Set.mem_union, Set.mem_sep_iff]
  tauto

omit [DecidableEq K] [DecidableEq V] in
theorem disjoint_solutionsAt {k : K} {ks : List K} (h : k ∉ ks) :
    Disjoint {σ ∈ solutions operands | σ label = k} (solutionsAt operands label ks) := by
  refine Set.disjoint_left.mpr fun σ hσ hσ' => h ?_
  rw [← hσ.2]
  exact hσ'.2

theorem solutionsAt_eq (hv : ∀ o ∈ operands, o.Valid t F ns) {ks : List K}
    (h : ∀ k, k ∈ ks ↔ Common label operands k) : solutionsAt operands label ks = solutions operands :=
  Set.sep_eq_self_iff_mem_true.mpr fun σ hσ => (h (σ label)).mpr (common_of_mem hv hσ.1 label)

namespace JoinOperator

variable {items : List (K × List (ConstHypertrie K V))}

/-- The loop lists the solutions with the key parts of its items. -/
theorem generatorLoop_spec (hs : sub.Right t F ns boolValued n) (hp : Problem t F ns operands result)
    (hn : (labelSet operands).card < n + 1) (hlabel : label ∈ labelSet operands)
    (hnodup : (items.map Prod.fst).Nodup) (hitems : ∀ item ∈ items, JoinItem t F ns operands label item)
    (hl : e.key.length = result.length) :
    Ensures (generatorLoop sub (subscriptOf operands result) label items e) (fun res =>
      Agree (labelSet operands) result res.2.key e.key ∧ Lists (!boolValued) res.1
        (solutionsAt operands label (items.map Prod.fst)) (fill (labelSet operands) result e.key)) := by
  induction items generalizing e with
  | nil =>
    have hempty : solutionsAt operands label ([].map (Prod.fst (β := List (ConstHypertrie K V)))) = ∅ := by
      simp [solutionsAt]
    rw [hempty]
    exact Ensures.pure ⟨.refl _ _ _, .nil _⟩
  | cons item items ih =>
    obtain ⟨keyPart, subOperands⟩ := item
    rw [List.map_cons, List.nodup_cons] at hnodup
    have hi := hitems _ List.mem_cons_self
    obtain ⟨hproblem, hsc, hhyp, hset, hfiber, hinj⟩ := hi.problem hp hlabel
    obtain ⟨hl', hagree, hfill⟩ := setLabel_spec (e := e) hp hlabel hl keyPart
    have hcard : (labelSet (afterJoins label keyPart operands subOperands)).card < n := by
      have := Finset.card_erase_lt_of_mem hlabel
      rw [hset]
      omega
    have hsub := hs.entries hproblem hcard hl'
    rw [hsc, hhyp] at hsub
    rw [generatorLoop]
    refine Ensures.bind hsub ?_
    rintro ⟨out, e'⟩ ⟨hagree', hout⟩
    rw [hset] at hagree' hout
    have hback : Agree (labelSet operands) result e'.key e.key :=
      (hagree'.mono (Finset.erase_subset _ _)).trans hagree
    refine Ensures.bind (ih hnodup.2 (fun item hm => hitems item (List.mem_cons_of_mem _ hm))
      (hback.length.trans hl)) ?_
    rintro ⟨rest, e''⟩ ⟨hagree'', hrest⟩
    refine Ensures.pure ⟨hagree''.trans hback, ?_⟩
    rw [List.map_cons, solutionsAt_cons]
    refine Lists.append ?_ (hrest.congr fun σ _ => hback.fill σ) (disjoint_solutionsAt hnodup.1)
    rw [hfiber]
    refine (Lists.image hinj).mpr (hout.congr fun σ _ => ?_)
    exact (hfill σ).symm

theorem generator_spec (hr : Readable t F ns) (hs : sub.Right t F ns boolValued n)
    (hp : Problem t F ns operands result) (hn : (labelSet operands).card < n + 1)
    (hne : (labelSet operands).Nonempty) (hl : e.key.length = result.length) :
    Ensures (generator t ns c sub (subscriptOf operands result) (operands.map (·.hypertrie)) e)
      (Generates boolValued operands result e) := by
  have hlabel := c.minCardLabel_mem (operands.map (·.hypertrie)) (subscriptOf operands result) hne
  have hclear := agree_clearUsedEntryPoss e operands result
  rw [generator]
  refine Ensures.bind (items_spec c.std hr hp hlabel) ?_
  rintro items ⟨hnodup, hkeys, hitems⟩
  refine (generatorLoop_spec hs hp hn hlabel hnodup hitems (hclear.length.trans hl)).mono ?_
  rintro ⟨out, e'⟩ ⟨hagree, hout⟩
  rw [solutionsAt_eq hp.valid hkeys] at hout
  exact ⟨hagree.trans hclear, hout.congr fun σ _ => hclear.fill σ⟩

/-- The loop adds the number of solutions with the key parts of its items. -/
theorem singleLoop_spec (hs : sub.Right t F ns boolValued n) (hp : Problem t F ns operands result)
    (hn : (labelSet operands).card < n + 1) (hlabel : label ∈ labelSet operands)
    (hd : (subscriptOf operands result).allResultDone = true)
    (hnodup : (items.map Prod.fst).Nodup) (hitems : ∀ item ∈ items, JoinItem t F ns operands label item)
    (hl : e.key.length = result.length) {value : Nat} {A : Set (Label → K)}
    (hA : Counts (!boolValued) value A) (hbool : boolValued = true → A = ∅)
    (hdisj : Disjoint A (solutionsAt operands label (items.map Prod.fst))) :
    Ensures (singleLoop boolValued sub ((subscriptOf operands result).removeLabel label) items value e)
      (fun e' => e'.key = e.key ∧ Counts (!boolValued) e'.value
        (A ∪ solutionsAt operands label (items.map Prod.fst))) := by
  induction items generalizing e value A with
  | nil =>
    have hempty : solutionsAt operands label ([].map (Prod.fst (β := List (ConstHypertrie K V)))) = ∅ := by
      simp [solutionsAt]
    rw [hempty, Set.union_empty]
    exact Ensures.pure ⟨rfl, hA⟩
  | cons item items ih =>
    obtain ⟨keyPart, subOperands⟩ := item
    rw [List.map_cons, List.nodup_cons] at hnodup
    have hi := hitems _ List.mem_cons_self
    obtain ⟨hproblem, hsc, hhyp, hset, hfiber, hinj⟩ := hi.problem hp hlabel
    have hcard : (labelSet (afterJoins label keyPart operands subOperands)).card < n := by
      have := Finset.card_erase_lt_of_mem hlabel
      rw [hset]
      omega
    have hdone : (subscriptOf (afterJoins label keyPart operands subOperands) result).allResultDone =
        true := by
      refine done_iff.mpr fun l hm hu => done_iff.mp hd l hm ?_
      exact Finset.mem_of_mem_erase (hset ▸ hu)
    have hsub := hs.singleResult _ result e hproblem hcard hl hdone
    rw [hsc, hhyp] at hsub
    rw [List.map_cons, solutionsAt_cons] at hdisj ⊢
    have hdisjHead := hdisj.mono_right Set.subset_union_left
    have hdisjTail := hdisj.mono_right Set.subset_union_right
    have hrec {e : Entry K} := @ih e hnodup.2 fun item hm => hitems item (List.mem_cons_of_mem _ hm)
    rw [singleLoop]
    refine Ensures.bind hsub ?_
    rintro e' ⟨hkey, hcount⟩
    have hfib : Counts (!boolValued) e'.value {σ ∈ solutions operands | σ label = keyPart} := by
      rw [hfiber]
      exact (Counts.image hinj).mpr hcount
    by_cases hv : e'.value ≠ 0
    · rw [if_pos hv]
      cases boolValued with
      | true =>
        refine Ensures.pure ⟨hkey, iff_of_true hv ?_, fun h => by cases h⟩
        exact (hfib.ne_zero_iff.mp hv).mono fun σ hσ => .inr (.inl hσ)
      | false =>
        have hdisjRest : Disjoint {σ ∈ solutions operands | σ label = keyPart}
            (solutionsAt operands label (items.map Prod.fst)) := disjoint_solutionsAt hnodup.1
        refine (hrec (hkey ▸ hl) (hA.union hfib hdisjHead) (fun h => by cases h)
          (hdisjTail.sup_left hdisjRest)).mono ?_
        rintro e'' ⟨hkey', hcount'⟩
        refine ⟨hkey'.trans hkey, ?_⟩
        rwa [← Set.union_assoc]
    · have hempty : {σ ∈ solutions operands | σ label = keyPart} = ∅ :=
        Set.not_nonempty_iff_eq_empty.mp fun h => hv (hfib.ne_zero_iff.mpr h)
      rw [if_neg hv, hempty, Set.empty_union]
      refine (hrec (hkey ▸ hl) hA hbool hdisjTail).mono ?_
      rintro e'' ⟨hkey', hcount'⟩
      exact ⟨hkey'.trans hkey, hcount'⟩

theorem singleResult_spec (hr : Readable t F ns) (hs : sub.Right t F ns boolValued n)
    (hp : Problem t F ns operands result) (hn : (labelSet operands).card < n + 1)
    (hne : (labelSet operands).Nonempty) (hl : e.key.length = result.length)
    (hd : (subscriptOf operands result).allResultDone = true) :
    Ensures (singleResult t ns c boolValued sub (subscriptOf operands result)
      (operands.map (·.hypertrie)) e) (CountsTo boolValued operands e) := by
  have hlabel := c.minCardLabel_mem (operands.map (·.hypertrie)) (subscriptOf operands result) hne
  rw [singleResult]
  refine Ensures.bind (items_spec c.std hr hp hlabel) ?_
  rintro items ⟨hnodup, hkeys, hitems⟩
  rw [clearUsedEntryPoss_of_done hd]
  refine (singleLoop_spec hs hp hn hlabel hd hnodup hitems hl .zero (fun _ => rfl)
    (Set.empty_disjoint _)).mono ?_
  rintro e' ⟨hkey, hcount⟩
  rw [solutionsAt_eq hp.valid hkeys, Set.empty_union] at hcount
  exact ⟨hkey, hcount⟩

end JoinOperator

end Spec

end Hypertrie
