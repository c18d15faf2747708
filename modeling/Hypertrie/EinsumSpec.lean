import Hypertrie.EinsumCartesian

/-! The operators of einsum, and einsum as a whole: it lists the solutions of its
operands by their values at the result labels. -/

namespace Hypertrie

open UnorderedMap Weighted LabelledOperand Assignment

variable {M : Type → Type → Type} [UnorderedMap M] {K V : Type}
variable [Inhabited K]

section SingleOperand

variable {t : HypertrieTrait K V} {F : Nat → Finset (SingleEntry K V) → Prop}
variable {ns : NodeStorage M K V} {labels : List Label} {key : List K} {result : List Label}
variable {o : LabelledOperand K V}

/-- The values that a key gives to the labels of its positions. -/
def assignmentOf (labels : List Label) (key : List K) (l : Label) : K :=
  key.getD (labels.idxOf l) default

theorem map_assignmentOf (hn : labels.Nodup) (hl : key.length = labels.length) :
    labels.map (assignmentOf labels key) = key := by
  refine List.ext_getElem (by simp [hl]) fun i hi hi' => ?_
  rw [List.length_map] at hi
  rw [List.getElem_map, assignmentOf, hn.idxOf_getElem i hi, List.getD_eq_getElem _ _ hi']

theorem supported_assignmentOf (hl : key.length = labels.length) :
    Supported labels.toFinset (assignmentOf labels key) := by
  intro l hm
  rw [assignmentOf, List.idxOf_of_notMem fun h => hm (List.mem_toFinset.mpr h), ← hl]
  exact List.getD_eq_default _ _ le_rfl

omit [Inhabited K] in
/-- Writing a key to the positions of its labels. -/
theorem writeKey_labelPoss (hn : labels.Nodup) (hsub : ∀ l ∈ labels, l ∈ result) (hr : result.Nodup)
    (hl : key.length = result.length) (σ : Label → K) :
    writeKey (labels.map (result.idxOf ·)) key (labels.map σ) = fill labels.toFinset result key σ := by
  induction labels generalizing key with
  | nil => exact (fill_eq_self hl fun l _ => Finset.notMem_empty l).symm
  | cons label labels ih =>
    obtain ⟨hlabel, hn⟩ := List.nodup_cons.mp hn
    have hm := hsub label List.mem_cons_self
    have hset : (key.set (result.idxOf label) (σ label)).length = result.length := by
      rw [List.length_set, hl]
    have hmem : label ∈ (label :: labels).toFinset := List.mem_toFinset.mpr List.mem_cons_self
    have hfill := fill_update hmem hr hl (σ label) σ
    have herase : (label :: labels).toFinset.erase label = labels.toFinset := by
      rw [List.toFinset_cons, Finset.erase_insert (by simpa using hlabel)]
    rw [Function.update_eq_self, herase, if_pos hm] at hfill
    rw [hfill, ← ih hn (fun l hl => hsub l (List.mem_cons_of_mem _ hl)) hset]
    rfl

omit [Inhabited K] in
theorem labelSet_singleton (o : LabelledOperand K V) : labelSet [o] = o.labels.toFinset := by
  simp [labelSet]

theorem solutions_singleton (hv : o.Valid t F ns) (hn : o.labels.Nodup) :
    solutions [o] = (fun e => assignmentOf o.labels e.key) '' (o.entries : Set (SingleEntry K V)) := by
  have hlen (e) (he : e ∈ o.entries) : e.key.length = o.labels.length :=
    (hv.holds.entrySet.length e he).trans hv.depth
  ext σ
  rw [LabelledOperand.solutions, labelSet_singleton, constraints, constraints, Set.inter_univ]
  constructor
  · rintro ⟨⟨e, he, hkey⟩, hs⟩
    refine ⟨e, he, funext fun l => ?_⟩
    by_cases hl : l ∈ o.labels
    · exact List.map_inj_left.mp ((map_assignmentOf hn (hlen e he)).trans hkey) l hl
    · have hl : l ∉ o.labels.toFinset := by simpa using hl
      exact (supported_assignmentOf (hlen e he) l hl).trans (hs l hl).symm
  · rintro ⟨e, he, rfl⟩
    exact ⟨⟨e, he, (map_assignmentOf hn (hlen e he)).symm⟩, supported_assignmentOf (hlen e he)⟩

theorem injOn_assignmentOf (hv : o.Valid t F ns) (hn : o.labels.Nodup) :
    Set.InjOn (fun e => assignmentOf o.labels e.key) (o.entries : Set (SingleEntry K V)) := by
  intro e he e' he' h
  have hlen (e) (he : e ∈ o.entries) : e.key.length = o.labels.length :=
    (hv.holds.entrySet.length e he).trans hv.depth
  refine hv.holds.entrySet.unique e he e' he' ?_
  rw [← map_assignmentOf hn (hlen e he), ← map_assignmentOf hn (hlen e' he')]
  exact congrArg (o.labels.map ·) h

end SingleOperand

namespace ResolveOperator

variable {t : HypertrieTrait K V} {F : Nat → Finset (SingleEntry K V) → Prop}
variable {ns : NodeStorage M K V} {boolValued : Bool} {o : LabelledOperand K V} {result : List Label}
variable {e : Entry K} {entries : List (SingleEntry K V)}

theorem generatorLoop_spec (hn : o.labels.Nodup) (hsub : ∀ l ∈ o.labels, l ∈ result)
    (hr : result.Nodup) (hentries : ∀ entry ∈ entries, entry.key.length = o.labels.length)
    (hl : e.key.length = result.length) :
    Agree o.labels.toFinset result (generatorLoop (subscriptOf [o] result) entries e).2.key e.key ∧
      (generatorLoop (subscriptOf [o] result) entries e).1 = entries.map fun entry =>
        ⟨fill o.labels.toFinset result e.key (assignmentOf o.labels entry.key), 1⟩ := by
  induction entries generalizing e with
  | nil => exact ⟨.refl _ _ _, rfl⟩
  | cons entry entries ih =>
    have hlength := hentries entry List.mem_cons_self
    have hwrite : writeKey (operand2resultMapping (subscriptOf [o] result)) e.key entry.key =
        fill o.labels.toFinset result e.key (assignmentOf o.labels entry.key) := by
      have hwrite := writeKey_labelPoss hn hsub hr hl (assignmentOf o.labels entry.key)
      rwa [map_assignmentOf hn hlength] at hwrite
    have hagree : Agree o.labels.toFinset result
        (fill o.labels.toFinset result e.key (assignmentOf o.labels entry.key)) e.key :=
      ⟨(length_fill hl).trans hl.symm, fun σ => fill_of_subset (Finset.Subset.refl _) result e.key σ _⟩
    have ih {e : Entry K} := @ih e fun entry hm => hentries entry (List.mem_cons_of_mem _ hm)
    obtain ⟨hlast, hrest⟩ := @ih ((e.setKey (writeKey (operand2resultMapping (subscriptOf [o] result))
      e.key entry.key)).setValue 1) (by
        show (writeKey _ e.key entry.key).length = result.length
        rw [hwrite, length_fill hl])
    rw [generatorLoop]
    simp only [Entry.setKey, Entry.setValue, hwrite] at hlast hrest ⊢
    refine ⟨hlast.trans hagree, ?_⟩
    rw [hrest, List.map_cons]
    simp only [hagree.fill]

variable [DecidableEq K] [DecidableEq V]

theorem generator_spec (hr : Readable t F ns) (hp : Problem t F ns [o] result) (hn : o.labels.Nodup)
    (hsub : ∀ l ∈ o.labels, l ∈ result) (hl : e.key.length = result.length) :
    Ensures (generator t ns (subscriptOf [o] result) [o.hypertrie] e)
      (Generates boolValued [o] result e) := by
  have hv := hp.valid o List.mem_cons_self
  have hclear := agree_clearUsedEntryPoss e [o] result
  have hdepth : 0 < o.hypertrie.depth := hv.held.depth_pos
  rw [generator]
  simp only [List.head?_cons, Option.bind_eq_bind, Option.bind_some]
  refine Ensures.bind (ConstHypertrie.entries_spec hr hv.holds hdepth) fun entries hentries => ?_
  have hlength (entry) (hm : entry ∈ entries) : entry.key.length = o.labels.length :=
    (hv.holds.entrySet.length entry ((hentries.2 entry).mp hm)).trans hv.depth
  obtain ⟨hagree, hout⟩ := generatorLoop_spec hn hsub hp.nodup hlength (hclear.length.trans hl)
  refine Ensures.pure ⟨?_, ?_⟩
  · rw [labelSet_singleton] at hclear ⊢
    exact hagree.trans hclear
  · have hset : {entry | entry ∈ entries} = (o.entries : Set (SingleEntry K V)) := Set.ext hentries.2
    rw [hout, solutions_singleton hv hn, labelSet_singleton]
    refine (Lists.image (injOn_assignmentOf hv hn)).mpr ?_
    rw [← hset]
    refine (Lists.of_list hentries.1 _).congr fun entry _ => ?_
    rw [labelSet_singleton] at hclear
    exact hclear.fill _

end ResolveOperator

namespace CountOperator

variable [DecidableEq K] [DecidableEq V]
variable {t : HypertrieTrait K V} {F : Nat → Finset (SingleEntry K V) → Prop}
variable {ns : NodeStorage M K V} {boolValued : Bool} {o : LabelledOperand K V} {e : Entry K}

theorem singleResult_spec (hr : Readable t F ns) (hv : o.Valid t F ns) (hn : o.labels.Nodup) :
    Ensures (singleResult t ns boolValued [o.hypertrie] e) (CountsTo boolValued [o] e) := by
  have hne : (solutions [o]).Nonempty := by
    rw [solutions_singleton hv hn]
    exact (Finset.coe_nonempty.mpr hv.nonempty).image _
  have hdepth : 0 < o.hypertrie.depth := hv.held.depth_pos
  cases boolValued with
  | true => exact Ensures.pure ⟨rfl, iff_of_true Nat.one_ne_zero hne, by simp⟩
  | false =>
    rw [singleResult, if_neg Bool.false_ne_true]
    simp only [List.head?_cons, Option.bind_eq_bind, Option.bind_some]
    refine Ensures.bind (ConstHypertrie.size_spec hr hv.holds hdepth) ?_
    rintro _ rfl
    refine Ensures.pure ⟨rfl, iff_of_true (Finset.card_ne_zero.mpr hv.nonempty) hne, fun _ => ?_⟩
    rw [solutions_singleton hv hn, (injOn_assignmentOf hv hn).encard_image,
      Set.encard_coe_eq_coe_finsetCard]
    rfl

end CountOperator

theorem EntryGeneratorOperator.singleResult_spec (boolValued : Bool) (e : Entry K) :
    Ensures (EntryGeneratorOperator.singleResult e)
      (CountsTo boolValued ([] : List (LabelledOperand K V)) e) := by
  have hone : solutions ([] : List (LabelledOperand K V)) = {default} := solutions_empty
  refine Ensures.pure ⟨rfl, ?_⟩
  rw [hone]
  exact ⟨iff_of_true Nat.one_ne_zero (Set.singleton_nonempty _), fun _ => Set.encard_singleton _ |>.symm⟩

section Schedule

variable {t : HypertrieTrait K V} {F : Nat → Finset (SingleEntry K V) → Prop}
variable {ns : NodeStorage M K V} {c : EinsumChoices K V} {boolValued : Bool}
variable {operands : List (LabelledOperand K V)} {result : List Label} {sets : SetBegin Label}

/-- When an operator is scheduled. -/
inductive Scheduled (sets : SetBegin Label) (result : List Label) :
    List (LabelledOperand K V) → SubscriptType → Prop where
  | join {operands : List (LabelledOperand K V)} (hne : operands ≠ []) :
      Scheduled sets result operands .join
  | cartesian {operands : List (LabelledOperand K V)} {cs : List (Finset Label)}
      (hcs : (subscriptOf operands result).connectedComponents sets = some cs) (hlen : 1 < cs.length) :
      Scheduled sets result operands .cartesian
  | resolve {o : LabelledOperand K V} (hn : o.labels.Nodup) (hsub : ∀ l ∈ o.labels, l ∈ result) :
      Scheduled sets result [o] .resolve
  | count {o : LabelledOperand K V} (hn : o.labels.Nodup) (hno : ∀ l ∈ o.labels, l ∉ result) :
      Scheduled sets result [o] .count
  | entryGenerator : Scheduled sets result [] .entryGenerator

theorem nodup_of_length_eq {labels : List Label} (h : labels.length = labels.toFinset.card) :
    labels.Nodup :=
  Multiset.toFinset_card_eq_card_iff_nodup.mp h.symm

omit [Inhabited K] in
theorem type_spec (sets : SetBegin Label) (operands : List (LabelledOperand K V)) (result : List Label) :
    Ensures ((subscriptOf operands result).type sets) (Scheduled sets result operands) := by
  rcases operands with _ | ⟨o, _ | ⟨o', operands⟩⟩
  · exact Ensures.pure .entryGenerator
  · have hset : (subscriptOf [o] result).operandsLabelSet = o.labels.toFinset := by
      rw [operandsLabelSet_subscriptOf, labelSet_singleton]
    have hlabel (l : Label) (hl : l ∈ o.labels) : l ∈ (subscriptOf [o] result).operandsLabelSet := by
      rw [hset]
      exact List.mem_toFinset.mpr hl
    have hresult (l : Label) : l ∈ (subscriptOf [o] result).resultLabelSet ↔ l ∈ result :=
      List.mem_toFinset
    show Ensures ((if o.labels.length = (subscriptOf [o] result).operandsLabelSet.card then
        if ∀ l ∈ (subscriptOf [o] result).operandsLabelSet,
          l ∈ (subscriptOf [o] result).resultLabelSet then some .resolve
        else if ∀ l ∈ (subscriptOf [o] result).operandsLabelSet,
          l ∉ (subscriptOf [o] result).resultLabelSet then some .count
        else some .join
      else some .join : Option SubscriptType)) _
    split
    next hlen =>
      have hn := nodup_of_length_eq (hlen.trans (congrArg Finset.card hset))
      split
      next hall => exact Ensures.pure (.resolve hn fun l hl => (hresult l).mp (hall l (hlabel l hl)))
      next =>
        split
        next hno =>
          exact Ensures.pure (.count hn fun l hl hm => hno l (hlabel l hl) ((hresult l).mpr hm))
        next => exact Ensures.pure (.join (List.cons_ne_nil _ _))
    next => exact Ensures.pure (.join (List.cons_ne_nil _ _))
  · obtain ⟨cs, hcs, -⟩ := Subscript.connectedComponents_spec sets (subscriptOf (o :: o' :: operands) result)
    have htype : (subscriptOf (o :: o' :: operands) result).type sets =
        some (if cs.length > 1 then .cartesian else .join) := by
      show ((subscriptOf (o :: o' :: operands) result).connectedComponents sets).bind _ = _
      rw [hcs]
      rfl
    rw [htype]
    by_cases hlen : cs.length > 1
    · rw [if_pos hlen]
      exact Ensures.pure (.cartesian hcs hlen)
    · rw [if_neg hlen]
      exact Ensures.pure (.join (List.cons_ne_nil _ _))

theorem labelSet_nonempty (hp : Problem t F ns operands result) (hne : operands ≠ []) :
    (labelSet operands).Nonempty := by
  obtain ⟨o, ho⟩ := List.exists_mem_of_ne_nil _ hne
  obtain ⟨l, hl⟩ := List.exists_mem_of_ne_nil _ (hp.valid o ho).labels
  exact ⟨l, mem_labelSet.mpr ⟨o, ho, hl⟩⟩

variable [DecidableEq K] [DecidableEq V]

/-- The scheduled operators are right. -/
theorem getSubOperator_right (hr : Readable t F ns) (c : EinsumChoices K V) (boolValued : Bool) (n : Nat) :
    (getSubOperator (M := M) t ns c boolValued n).Right t F ns boolValued n := by
  induction n with
  | zero => exact ⟨fun _ _ _ _ hn => absurd hn (Nat.not_lt_zero _), fun _ _ _ _ hn =>
      absurd hn (Nat.not_lt_zero _)⟩
  | succ n ih =>
    refine ⟨fun operands result e hp hn hl hd => ?_, fun operands result e hp hn hl hd => ?_⟩
    · refine Ensures.bind (type_spec c.sets operands result) fun type htype => ?_
      have hnot : ¬ ∀ l ∈ result, l ∉ labelSet operands := fun h =>
        Bool.false_ne_true (hd.symm.trans (done_iff.mpr h))
      cases htype with
      | join hne => exact JoinOperator.generator_spec hr ih hp hn (labelSet_nonempty hp hne) hl
      | cartesian hcs hlen => exact CartesianOperator.generator_spec ih hp hn hl hcs hlen
      | resolve hnodup hsub => exact ResolveOperator.generator_spec hr hp hnodup hsub hl
      | @count o hnodup hno =>
        refine absurd (fun l hl hm => ?_) hnot
        rw [labelSet_singleton] at hm
        exact hno l (List.mem_toFinset.mp hm) hl
      | entryGenerator => exact absurd (fun l _ => Finset.notMem_empty l) hnot
    · refine Ensures.bind (type_spec c.sets operands result) fun type htype => ?_
      cases htype with
      | join hne => exact JoinOperator.singleResult_spec hr ih hp hn (labelSet_nonempty hp hne) hl hd
      | cartesian hcs hlen => exact CartesianOperator.singleResult_spec ih hp hn hd hcs hlen
      | @resolve o hnodup hsub =>
        obtain ⟨l, hl⟩ := List.exists_mem_of_ne_nil _ (hp.valid o List.mem_cons_self).labels
        refine absurd ?_ (done_iff.mp hd l (hsub l hl))
        rw [labelSet_singleton]
        exact List.mem_toFinset.mpr hl
      | count hnodup _ => exact CountOperator.singleResult_spec hr (hp.valid _ List.mem_cons_self) hnodup
      | entryGenerator => exact EntryGeneratorOperator.singleResult_spec boolValued e

end Schedule

section Einsum

variable [DecidableEq K] [DecidableEq V]
variable {t : HypertrieTrait K V} {F : Nat → Finset (SingleEntry K V) → Prop}
variable {ns : NodeStorage M K V} {roots : Multiset (Root K V)} {c : EinsumChoices K V}
variable {operands : List (LabelledOperand K V)} {result : List Label}
variable {hash : Entry K → BitVec 64}

/-- Without the duplicate filter, einsum lists the solutions. -/
theorem einsum_lists (hr : Readable t F ns) (hp : Problem t F ns operands result)
    (hresult : ∀ l ∈ result, l ∈ labelSet operands) (c : EinsumChoices K V)
    (hash : Entry K → BitVec 64) :
    Ensures (einsum (M := M) t ns c false hash (subscriptOf operands result)
      (operands.map (·.hypertrie))) fun out => Lists true out (solutions operands) (result.map ·) := by
  have hright := getSubOperator_right (M := M) hr c false ((labelSet operands).card + 1)
  have hl : (Entry.makeFilled (K := K) result.length 1).key.length = result.length :=
    List.length_replicate
  have hn : (labelSet operands).card < (labelSet operands).card + 1 := Nat.lt_succ_self _
  have hfill (key : List K) (hl : key.length = result.length) (σ : Label → K) :
      fill (labelSet operands) result key σ = result.map σ := fill_all hl hresult
  rw [einsum]
  by_cases hd : (subscriptOf operands result).allResultDone = true
  · have hnil : result = [] := List.eq_nil_iff_forall_not_mem.mpr fun l hm =>
      done_iff.mp hd l hm (hresult l hm)
    rw [if_pos hd]
    refine Ensures.bind (hright.singleResult _ _ _ hp hn hl hd) fun e ⟨hkey, hcount⟩ => ?_
    have hread (e : Entry K) (hkey : e.key.length = result.length) (σ : Label → K) :
        result.map σ = e.key := by
      subst hnil
      exact (List.length_eq_zero_iff.mp hkey).symm
    by_cases hv : e.value ≠ 0
    · rw [if_pos hv]
      have hl' : e.key.length = result.length := hkey ▸ hl
      refine Ensures.bind (hright.singleResult _ _ _ hp hn hl' hd) fun e' ⟨hkey', hcount'⟩ => ?_
      have hv' : e'.value ≠ 0 := hcount'.ne_zero_iff.mpr (hcount.ne_zero_iff.mp hv)
      have hlists := hcount'.lists fun σ _ => hread e' (hkey' ▸ hl') σ
      rw [if_pos hv'] at hlists
      exact Ensures.pure hlists
    · rw [if_neg hv]
      have hlists := hcount.lists fun σ _ => hread e (hkey ▸ hl) σ
      rw [if_neg hv] at hlists
      exact Ensures.pure hlists
  · rw [if_neg hd]
    refine Ensures.bind (hright.generator _ _ _ hp hn hl (by simpa using hd)) ?_
    rintro ⟨out, e⟩ ⟨-, hout⟩
    exact Ensures.pure (hout.congr fun σ _ => hfill _ hl σ)

/-- The values of einsum count the solutions: the assignments to the labels of the operands that
satisfy all operands, with a default value for other labels. -/
theorem einsum_counts (hc : Canonical t ns roots) (hn : NoCollision t roots)
    (hv : ∀ o ∈ operands, o.Valid t (Live roots) ns) (hlen : operands.length ≤ posTypeCount)
    (hnodup : result.Nodup) (hresult : ∀ l ∈ result, l ∈ labelSet operands) (c : EinsumChoices K V)
    (hash : Entry K → BitVec 64) :
    ∃ out, einsum (M := M) t ns c false hash (subscriptOf operands result)
        (operands.map (·.hypertrie)) = some out ∧
      (∀ key, (weight out key : ℕ∞) = {σ ∈ solutions operands | result.map σ = key}.encard) ∧
      (∀ e ∈ out, e.value ≠ 0) ∧ ∀ e ∈ out, ∃ σ ∈ solutions operands, result.map σ = e.key := by
  obtain ⟨out, hout, hlists⟩ := einsum_lists (hc.readable hn) ⟨hv, hlen, hnodup⟩ hresult c hash
  refine ⟨out, hout, hlists.tallies rfl, hlists.value rfl, fun e he => ?_⟩
  exact (hlists.covers e.key).mp (List.mem_map_of_mem he)

end Einsum

section Examples

/-- The smallest member comes first. -/
def SetBegin.least : SetBegin Label where
  begin s := (((List.finRange 256).map BitVec.ofFin).find? (· ∈ s)).getD 0
  mem s := by
    rintro ⟨l, hl⟩
    have hall : l ∈ (List.finRange 256).map BitVec.ofFin :=
      List.mem_map.mpr ⟨l.toFin, List.mem_finRange _, rfl⟩
    cases hfind : ((List.finRange 256).map BitVec.ofFin).find? (· ∈ s) with
    | none => exact absurd (decide_eq_true hl) (List.find?_eq_none.mp hfind l hall)
    | some l' => simpa using List.find?_some hfind

/-- The first label is joined on, and the first component is iterated. -/
def EinsumChoices.first (K V : Type) : EinsumChoices K V where
  std := .merge
  sets := .least
  minCardLabel _ sc := sc.operands.flatten.headD 0
  minCardLabel_mem _ sc h := by
    obtain ⟨l, hl⟩ := h
    obtain ⟨l', rest, hcons⟩ := List.exists_cons_of_ne_nil (List.ne_nil_of_mem (List.mem_toFinset.mp hl))
    rw [hcons, Subscript.operandsLabelSet, hcons]
    exact List.mem_toFinset.mpr List.mem_cons_self
  iteratedPos _ := 0
  iteratedPos_lt _ h := List.length_pos_iff.mpr h

/-- The hypertrie with these entries of depth 1. -/
def singleLabel (label : Label) (keyParts : Finset (BitVec 64)) : LabelledOperand (BitVec 64) Bool :=
  let entries := keyParts.image fun keyPart => ⟨[keyPart], true⟩
  ⟨.ofNode defaultBoolTrait 1 (defaultBoolTrait.ident 1 entries), [label], entries⟩

theorem exists_singleLabel : ∃ (ns : NodeStorage AssocMap (BitVec 64) Bool)
    (roots : Multiset (Root (BitVec 64) Bool)),
    Canonical defaultBoolTrait ns roots ∧ NoCollision defaultBoolTrait roots ∧
    ∀ label, (singleLabel label {7}).Valid defaultBoolTrait (Live roots) ns ∧
      (singleLabel label {8, 9}).Valid defaultBoolTrait (Live roots) ns := by
  let roots : Multiset (Root (BitVec 64) Bool) :=
    {⟨1, {⟨[7], true⟩}⟩, ⟨1, {⟨[8], true⟩, ⟨[9], true⟩}⟩}
  have hr : RootsOk defaultBoolTrait roots := by
    intro r hr
    rcases Multiset.mem_cons.mp hr with rfl | hr
    · exact ⟨by decide, by decide, by decide, by decide⟩
    · obtain rfl := Multiset.mem_singleton.mp hr
      exact ⟨by decide, by decide, by decide, by decide⟩
  have hn : NoCollision defaultBoolTrait roots :=
    noCollision_of_liveSets (by decide +kernel) (by decide +kernel)
  obtain ⟨ns, hc⟩ := exists_canonical (M := AssocMap) hr hn
  refine ⟨ns, roots, hc, hn, fun label =>
    ⟨⟨?_, ?_, rfl, List.cons_ne_nil _ _⟩, ⟨?_, ?_, rfl, List.cons_ne_nil _ _⟩⟩⟩
  · exact hc.root_holds hn (Multiset.mem_cons_self _ _)
  · exact Finset.singleton_nonempty _
  · exact hc.root_holds hn (Multiset.mem_cons_of_mem (Multiset.mem_singleton_self _))
  · exact ⟨_, Finset.mem_image_of_mem _ (Finset.mem_insert_self _ _)⟩

theorem einsum_counts_two : ∃ (ns : NodeStorage AssocMap (BitVec 64) Bool) (out : _),
    einsum (M := AssocMap) defaultBoolTrait ns (.first _ _) false (fun _ => 0)
      (subscriptOf [singleLabel 97 {7}, singleLabel 98 {8, 9}] [98])
      ([singleLabel 97 {7}, singleLabel 98 {8, 9}].map (·.hypertrie)) = some out ∧
    (∀ key, (weight out key : ℕ∞) = {σ ∈ solutions [singleLabel 97 {7}, singleLabel 98 {8, 9}] |
      [98].map σ = key}.encard) ∧
    (∀ e ∈ out, e.value ≠ 0) ∧
    ∀ e ∈ out, ∃ σ ∈ solutions [singleLabel 97 {7}, singleLabel 98 {8, 9}], [98].map σ = e.key := by
  obtain ⟨ns, roots, hc, hn, hv⟩ := exists_singleLabel
  have hvalid : ∀ o ∈ [singleLabel 97 {7}, singleLabel 98 {8, 9}],
      o.Valid defaultBoolTrait (Live roots) ns := by
    intro o ho
    rcases List.mem_pair.mp ho with rfl | rfl
    · exact (hv 97).1
    · exact (hv 98).2
  exact ⟨ns, einsum_counts hc hn hvalid (by decide) (List.nodup_singleton 98) (by decide)
    (.first _ _) (fun _ => 0)⟩

/-- One operand more than there are positions of operands. -/
def operands257 : List (LabelledOperand (BitVec 64) Bool) :=
  List.replicate 256 (singleLabel 97 {7}) ++ [singleLabel 98 {8, 9}]

theorem subscriptOf_operands257 :
    subscriptOf operands257 [] = ⟨List.replicate 256 [97] ++ [[98]], []⟩ := by
  rw [subscriptOf, operands257, List.map_append, List.map_replicate]
  rfl

theorem connectedComponents_operands257 :
    (subscriptOf operands257 []).connectedComponents .least = some [{97}, {98}] := by
  have hgraph : (subscriptOf operands257 []).dependencyGraph =
      (⟨[[97], [98]], []⟩ : Subscript).dependencyGraph := by
    obtain ⟨-, hedge, hnodes⟩ := (subscriptOf operands257 []).dependencyGraph_spec
    obtain ⟨-, hedge', hnodes'⟩ := (⟨[[97], [98]], []⟩ : Subscript).dependencyGraph_spec
    have hmem (operand : List Label) :
        operand ∈ (subscriptOf operands257 []).operands ↔ operand ∈ ([[97], [98]] : List (List Label)) := by
      rw [subscriptOf_operands257, List.mem_append, List.mem_replicate, List.mem_singleton, List.mem_pair,
        and_iff_right (by decide)]
    have hset : (subscriptOf operands257 []).operandsLabelSet =
        (⟨[[97], [98]], []⟩ : Subscript).operandsLabelSet := by
      ext l
      simp only [Subscript.mem_operandsLabelSet, hmem]
    have hedges : (subscriptOf operands257 []).dependencyGraph.edges =
        (⟨[[97], [98]], []⟩ : Subscript).dependencyGraph.edges := by
      funext a
      ext b
      simp only [hedge, hedge', hmem]
    exact UndirectedGraph.ext (hnodes.trans (hset.trans hnodes'.symm)) hedges
  rw [Subscript.connectedComponents, hgraph]
  decide +kernel

theorem extract_operands257 : (subscriptOf operands257 []).extractCartesianSubSubscript {97} =
      ⟨⟨List.replicate 256 [97], []⟩, List.range 256, []⟩ ∧
    (subscriptOf operands257 []).extractCartesianSubSubscript {98} = ⟨⟨[[98]], []⟩, [0], []⟩ := by
  rw [subscriptOf_operands257]
  constructor
  · refine congr (congr (congrArg CartesianSubSubscript.mk ?_) ?_) ?_ <;> decide +kernel
  · refine congr (congr (congrArg CartesianSubSubscript.mk ?_) ?_) ?_ <;> decide +kernel

omit [Inhabited K] in
theorem labelSet_replicate {n : Nat} (hne : n ≠ 0) (o : LabelledOperand K V) :
    labelSet (List.replicate n o) = labelSet [o] := by
  ext l
  simp only [mem_labelSet, List.mem_replicate, List.mem_singleton, ne_eq, hne, not_false_eq_true,
    true_and]

theorem solutions_replicate {n : Nat} (hne : n ≠ 0) (o : LabelledOperand K V) :
    solutions (List.replicate n o) = solutions [o] := by
  have hcon : constraints (List.replicate n o) = constraints [o] := by
    ext σ
    simp only [mem_constraints, List.mem_replicate, List.mem_singleton, ne_eq, hne,
      not_false_eq_true, true_and]
  rw [LabelledOperand.solutions, labelSet_replicate hne, hcon]
  rfl

variable [DecidableEq K]

/-- A problem with one solution and without result labels. -/
theorem singleResult_eq_one {t : HypertrieTrait K V} {F : Nat → Finset (SingleEntry K V) → Prop}
    {ns : NodeStorage M K V} {n : Nat} {sub : SubOperator K V} {operands : List (LabelledOperand K V)}
    {e : Entry K} (hs : sub.Right t F ns false n) (hp : Problem t F ns operands [])
    (hn : (labelSet operands).card < n) (he : e.key = []) (hone : (solutions operands).encard = 1) :
    sub.singleResult (subscriptOf operands []) (operands.map (·.hypertrie)) e = some ⟨[], 1⟩ := by
  obtain ⟨e', he', hkey, hcount⟩ := hs.singleResult operands [] e hp hn (congrArg List.length he)
    (done_iff.mpr fun _ hl => absurd hl List.not_mem_nil)
  have hvalue : e'.value = 1 := by
    have := (hcount.encard rfl).trans hone
    exact_mod_cast this
  rw [he', ← hvalue, ← he, ← hkey]

theorem encard_solutions_seven (label : Label) : (solutions [singleLabel label {7}]).encard = 1 := by
  obtain ⟨ns, roots, -, -, hv⟩ := exists_singleLabel
  rw [solutions_singleton (hv label).1 (List.nodup_singleton _),
    (injOn_assignmentOf (hv label).1 (List.nodup_singleton _)).encard_image,
    Set.encard_coe_eq_coe_finsetCard]
  rfl

theorem mapM_range {α : Type} {l : List α} {n : Nat} (h : n ≤ l.length) :
    (List.range n).mapM (l[·]?) = some (l.take n) := by
  induction n with
  | zero => rfl
  | succ n ih =>
    rw [List.range_succ, List.mapM_append, ih (by omega), List.take_add_one,
      List.getElem?_eq_getElem (by omega)]
    simp [List.getElem?_eq_getElem (show n < l.length by omega)]

/-- The components with their operands, as they are extracted. -/
theorem extractSuboperands_operands257 :
    CartesianOperator.extractSuboperands (.first _ _) (subscriptOf operands257 [])
      (operands257.map (·.hypertrie)) =
        some ([((List.replicate 256 (singleLabel 97 {7})).map (·.hypertrie),
            ⟨⟨List.replicate 256 [97], []⟩, List.range 256, []⟩),
          ([(singleLabel 98 {7}).hypertrie], ⟨⟨[[98]], []⟩, [0], []⟩)], 0) := by
  have hfirst : (List.range 256).mapM ((operands257.map (·.hypertrie))[·]?) =
      some ((List.replicate 256 (singleLabel 97 {7})).map (·.hypertrie)) := by
    have hlen : 256 ≤ (operands257.map (·.hypertrie)).length := by
      rw [List.length_map, operands257, List.length_append, List.length_replicate]
      exact Nat.le_add_right _ _
    rw [mapM_range hlen, ← List.map_take, operands257, List.take_left' List.length_replicate]
  have hsecond : [0].mapM ((operands257.map (·.hypertrie))[·]?) =
      some [(singleLabel 98 {7}).hypertrie] := rfl
  have hcs : (subscriptOf operands257 []).connectedComponents
      (EinsumChoices.first (BitVec 64) Bool).sets = some [{97}, {98}] := connectedComponents_operands257
  rw [CartesianOperator.extractSuboperands, Subscript.cartesianSubSubscripts, hcs]
  simp only [Option.map_some, List.map_cons, List.map_nil, extract_operands257.1,
    extract_operands257.2, Option.bind_eq_bind, Option.bind_some, List.mapM_cons, List.mapM_nil,
    CartesianOperator.extractOperands, hfirst, hsecond]
  rfl

theorem type_operands257 : (subscriptOf operands257 []).type .least = some .cartesian := by
  have htype : (subscriptOf operands257 []).type .least =
      ((subscriptOf operands257 []).connectedComponents .least).bind
        fun cs => some (if cs.length > 1 then .cartesian else .join) := by
    rw [subscriptOf_operands257]
    rfl
  rw [htype, connectedComponents_operands257]
  rfl

theorem singleResult_replicate {ns : NodeStorage AssocMap (BitVec 64) Bool}
    {F : Nat → Finset (SingleEntry (BitVec 64) Bool) → Prop} (hr : Readable defaultBoolTrait F ns)
    {label : Label} (hv : (singleLabel label {7}).Valid defaultBoolTrait F ns) {n : Nat} (hne : n ≠ 0)
    (hle : n ≤ posTypeCount) :
    (getSubOperator (M := AssocMap) defaultBoolTrait ns (.first _ _) false 2).singleResult
      ⟨List.replicate n [label], []⟩ (List.replicate n (singleLabel label {7}).hypertrie) ⟨[], 1⟩ =
        some ⟨[], 1⟩ := by
  have hp : Problem defaultBoolTrait F ns (List.replicate n (singleLabel label {7})) [] := by
    refine ⟨fun o ho => ?_, ?_, List.nodup_nil⟩
    · rw [List.eq_of_mem_replicate ho]
      exact hv
    · rw [List.length_replicate]
      exact hle
  have hcard : (labelSet (List.replicate n (singleLabel label {7}))).card < 2 := by
    rw [labelSet_replicate hne, labelSet_singleton]
    exact Nat.lt_succ_of_le (List.toFinset_card_le _)
  have hone : (solutions (List.replicate n (singleLabel label {7}))).encard = 1 := by
    rw [solutions_replicate hne]
    exact encard_solutions_seven label
  have h := singleResult_eq_one (e := ⟨[], 1⟩) (getSubOperator_right (M := AssocMap) hr (.first _ _) false 2)
    hp hcard rfl hone
  rwa [subscriptOf, List.map_replicate, List.map_replicate] at h

/-- Two components with one value each. -/
theorem CartesianOperator.singleResult_pair {c : EinsumChoices K V} {sub : SubOperator K V}
    {sc sc' sc'' : Subscript} {operands operands' operands'' : List (ConstHypertrie K V)}
    {poss poss' : List Nat} {e : Entry K} (hsc : sc.usedResultPoss = [])
    (hsc' : sc'.result = []) (hsc'' : sc''.result = [])
    (hext : extractSuboperands c sc operands =
      some ([(operands', ⟨sc', poss, []⟩), (operands'', ⟨sc'', poss', []⟩)], 0))
    (hs' : sub.singleResult sc' operands' ⟨[], 1⟩ = some ⟨[], 1⟩)
    (hs'' : sub.singleResult sc'' operands'' ⟨[], 1⟩ = some ⟨[], 1⟩) :
    singleResult (M := AssocMap) c false sub sc operands e = some ⟨e.key, 1⟩ := by
  have hclear : clearUsedEntryPoss e sc = e := by
    rw [clearUsedEntryPoss, hsc]
    rfl
  have hdone : sc''.allResultDone = true := by
    rw [Subscript.allResultDone, Subscript.resultLabelSet, hsc'']
    exact decide_eq_true fun _ hl => absurd hl (Finset.notMem_empty _)
  have hothers : getSubResults (M := AssocMap) false sub [(operands'', ⟨sc'', poss', []⟩)] =
      some (some [[⟨[], 1⟩]]) := by
    have hentries : sub.entries sc'' operands'' (Entry.makeFilled sc''.result.length 1) =
        some ([⟨[], 1⟩], ⟨[], 1⟩) := by
      rw [SubOperator.entries, if_pos hdone, hsc'']
      show (sub.singleResult sc'' operands'' ⟨[], 1⟩).map _ = _
      rw [hs'']
      rfl
    simp only [getSubResults, hentries, Option.bind_eq_bind, Option.bind_some]
    rfl
  have hproduct : singleProduct false sub (operands', ⟨sc', poss, []⟩)
      (.new [[⟨[], 1⟩]] [[]]) e = some ⟨e.key, 1⟩ := by
    rw [singleProduct, hsc']
    show (sub.singleResult sc' operands' ⟨[], 1⟩).bind _ = _
    rw [hs']
    rfl
  rw [singleResult, hclear]
  simp only [hext, Option.bind_eq_bind, Option.bind_some, List.getElem?_cons_zero,
    List.eraseIdx_cons_zero, hothers]
  exact hproduct

variable [DecidableEq V]

theorem singleResult_of_cartesian {t : HypertrieTrait K V} {ns : NodeStorage M K V}
    {c : EinsumChoices K V} {boolValued : Bool} {n : Nat} {sc : Subscript}
    {operands : List (ConstHypertrie K V)} {e : Entry K} (h : sc.type c.sets = some .cartesian) :
    (getSubOperator (M := M) t ns c boolValued (n + 1)).singleResult sc operands e =
      CartesianOperator.singleResult (M := M) c boolValued (getSubOperator (M := M) t ns c boolValued n)
        sc operands e := by
  rw [getSubOperator]
  simp only [h, Option.bind_some]

/-- Both components are taken to have one value. -/
theorem singleResult_operands257 {ns : NodeStorage AssocMap (BitVec 64) Bool}
    {F : Nat → Finset (SingleEntry (BitVec 64) Bool) → Prop} (hr : Readable defaultBoolTrait F ns)
    (hv : ∀ label, (singleLabel label {7}).Valid defaultBoolTrait F ns) (e : Entry (BitVec 64)) :
    (getSubOperator (M := AssocMap) defaultBoolTrait ns (.first _ _) false 3).singleResult
      (subscriptOf operands257 []) (operands257.map (·.hypertrie)) e = some ⟨e.key, 1⟩ := by
  have hext := extractSuboperands_operands257
  rw [List.map_replicate] at hext
  have hfirst := singleResult_replicate hr (hv 97) (n := 256) (by decide) le_rfl
  have hsecond := singleResult_replicate hr (hv 98) Nat.one_ne_zero (by decide)
  have htype : (subscriptOf operands257 []).type (EinsumChoices.first (BitVec 64) Bool).sets =
      some .cartesian := type_operands257
  rw [singleResult_of_cartesian htype]
  exact CartesianOperator.singleResult_pair rfl rfl rfl hext hfirst hsecond

/-- The position 256 of the last operand becomes 0, and einsum counts the value of the first operand
instead of its two values. -/
theorem einsum_257_wrong : ∃ (ns : NodeStorage AssocMap (BitVec 64) Bool)
    (roots : Multiset (Root (BitVec 64) Bool)),
    Canonical defaultBoolTrait ns roots ∧ NoCollision defaultBoolTrait roots ∧
    (∀ o ∈ operands257, o.Valid defaultBoolTrait (Live roots) ns) ∧
    einsum (M := AssocMap) defaultBoolTrait ns (.first _ _) false (fun _ => 0)
      (subscriptOf operands257 []) (operands257.map (·.hypertrie)) = some [⟨[], 1⟩] ∧
    ∃ σ ∈ solutions operands257, ∃ τ ∈ solutions operands257, σ ≠ τ := by
  obtain ⟨ns, roots, hc, hn, hv⟩ := exists_singleLabel
  have hvalid : ∀ o ∈ operands257, o.Valid defaultBoolTrait (Live roots) ns := by
    intro o ho
    rcases List.mem_append.mp ho with ho | ho
    · rw [List.eq_of_mem_replicate ho]
      exact (hv 97).1
    · rw [List.mem_singleton.mp ho]
      exact (hv 98).2
  refine ⟨ns, roots, hc, hn, hvalid, ?_, ?_⟩
  · have hcard : (subscriptOf operands257 []).operandsLabelSet.card + 1 = 3 := by
      rw [subscriptOf_operands257]
      decide +kernel
    have hdone : (subscriptOf operands257 []).allResultDone = true :=
      done_iff.mpr fun _ hl => absurd hl List.not_mem_nil
    have hone := singleResult_operands257 (hc.readable hn) fun label => (hv label).1
    rw [einsum, hcard, if_pos hdone]
    simp only [hone, Option.bind_eq_bind, Option.bind_some]
    rfl
  · have hmem : ∀ keyPart ∈ ({8, 9} : Finset (BitVec 64)),
        (fun l => if l = 97 then 7 else if l = 98 then keyPart else 0) ∈ solutions operands257 := by
      intro keyPart hk
      refine ⟨mem_constraints.mpr fun o ho => ?_, fun l hl => ?_⟩
      · rcases List.mem_append.mp ho with ho | ho
        · rw [List.eq_of_mem_replicate ho]
          exact ⟨⟨[7], true⟩, Finset.mem_image_of_mem _ (Finset.mem_singleton_self _), rfl⟩
        · rw [List.mem_singleton.mp ho]
          exact ⟨⟨[keyPart], true⟩, Finset.mem_image_of_mem _ hk, rfl⟩
      · have hin (l) (o) (ho : o ∈ operands257) (hl : l ∈ o.labels) : l ∈ labelSet operands257 :=
          mem_labelSet.mpr ⟨o, ho, hl⟩
        have h97 := hin 97 (singleLabel 97 {7})
          (List.mem_append_left _ (List.mem_replicate.mpr ⟨by decide, rfl⟩)) List.mem_cons_self
        have h98 := hin 98 (singleLabel 98 {8, 9})
          (List.mem_append_right _ List.mem_cons_self) List.mem_cons_self
        have hne97 : l ≠ 97 := fun h => hl (h ▸ h97)
        have hne98 : l ≠ 98 := fun h => hl (h ▸ h98)
        simp only [hne97, hne98, if_false]
        rfl
    refine ⟨_, hmem 8 (by decide), _, hmem 9 (by decide), fun h => ?_⟩
    have := congrFun h 98
    revert this
    decide

end Examples

end Hypertrie
