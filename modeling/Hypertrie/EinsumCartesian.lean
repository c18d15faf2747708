import Hypertrie.EinsumJoin

/-! The Cartesian product of the components of a sub-problem. -/

namespace Hypertrie

open UnorderedMap Weighted LabelledOperand Assignment Odometer

variable {M : Type → Type → Type} [UnorderedMap M] {K V : Type}

section Components

variable {t : HypertrieTrait K V} {F : Nat → Finset (SingleEntry K V) → Prop}
variable {ns : NodeStorage M K V} {operands : List (LabelledOperand K V)} {result : List Label}
variable {cs ds : List (Finset Label)} {labels : Finset Label}

/-- The operands with labels in the set. -/
def operandsOf (operands : List (LabelledOperand K V)) (labels : Finset Label) :
    List (LabelledOperand K V) :=
  operands.filter (fun o => o.labels.filter (· ∈ labels) ≠ [])

/-- The component of a set of labels. -/
def componentOf (operands : List (LabelledOperand K V)) (result : List Label) (labels : Finset Label) :
    CartesianOperator.Component K V :=
  ((operandsOf operands labels).map (·.hypertrie),
    (subscriptOf operands result).extractCartesianSubSubscript labels)

/-- The component as a constraint that is read at its result labels. -/
def partOf (operands : List (LabelledOperand K V)) (result : List Label) (labels : Finset Label) :
    Part Label K (List K) :=
  ⟨labels, constraints (operandsOf operands labels), fun σ => (result.filter (· ∈ labels)).map σ⟩

/-- An operand with a label in the set has all its labels there. -/
theorem filter_labels_eq (hc : (subscriptOf operands result).Splits cs) (hm : labels ∈ cs)
    {o : LabelledOperand K V} (ho : o ∈ operands) (hne : o.labels.filter (· ∈ labels) ≠ []) :
    o.labels.filter (· ∈ labels) = o.labels := by
  obtain ⟨a, ha⟩ := List.exists_mem_of_ne_nil _ hne
  obtain ⟨ha, hin⟩ := List.mem_filter.mp ha
  refine List.filter_eq_self.mpr fun b hb => decide_eq_true ?_
  exact hc.operand labels hm o.labels (List.mem_map_of_mem ho) a ha (of_decide_eq_true hin) b hb

theorem subscript_componentOf (hc : (subscriptOf operands result).Splits cs) (hm : labels ∈ cs) :
    (componentOf operands result labels).2.subscript =
      subscriptOf (operandsOf operands labels) (result.filter (· ∈ labels)) := by
  have hmap : ((operands.map (·.labels)).map (·.filter (· ∈ labels))).filter (· ≠ []) =
      (operandsOf operands labels).map (·.labels) := by
    rw [List.map_map, List.filter_map, operandsOf]
    refine List.map_congr_left fun o ho => ?_
    obtain ⟨ho, hne⟩ := List.mem_filter.mp ho
    exact filter_labels_eq hc hm ho (of_decide_eq_true hne)
  show (⟨_, _⟩ : Subscript) = ⟨_, _⟩
  rw [← hmap]
  rfl

/-- Elements with a property, through their positions. -/
theorem mapM_filter_range {α β : Type} (p : α → Bool) (f : α → β) (l : List α) :
    ((List.range l.length).filter (fun pos => l[pos]?.any p)).mapM ((l.map f)[·]?) =
      some ((l.filter p).map f) := by
  induction l with
  | nil => rfl
  | cons a l ih =>
    have htail : (((List.range l.length).map Nat.succ).filter
        (fun pos => (a :: l)[pos]?.any p)).mapM (((a :: l).map f)[·]?) = some ((l.filter p).map f) := by
      rw [List.filter_map, List.mapM_map]
      exact ih
    rw [List.length_cons, List.range_succ_eq_map, List.filter_cons]
    by_cases ha : p a = true
    · simp only [List.getElem?_cons_zero, Option.any_some, ha, if_true, List.filter_cons]
      rw [List.mapM_cons, htail]
      rfl
    · simp only [List.getElem?_cons_zero, Option.any_some, ha, Bool.false_eq_true, if_false,
        List.filter_cons]
      exact htail

/-- The operands are found at their original positions. -/
theorem extractOperands_componentOf (hlen : operands.length ≤ posTypeCount) (labels : Finset Label) :
    CartesianOperator.extractOperands (operands.map (·.hypertrie))
      ((subscriptOf operands result).extractCartesianSubSubscript labels) =
        some ((operandsOf operands labels).map (·.hypertrie)) := by
  let poss := (List.range operands.length).filter
    (fun pos => operands[pos]?.any (fun o => o.labels.filter (· ∈ labels) ≠ []))
  have hposs : ((subscriptOf operands result).extractCartesianSubSubscript labels).originalOperandPoss =
      poss.map (· % posTypeCount) := by
    simp only [Subscript.extractCartesianSubSubscript, subscriptOf, List.map_map, List.length_map,
      List.getElem?_map, Option.any_map, poss]
    rfl
  have hrange : ∀ pos ∈ poss, pos % posTypeCount = id pos := by
    intro pos hpos
    have := List.mem_range.mp (List.mem_filter.mp hpos).1
    exact Nat.mod_eq_of_lt (by omega)
  rw [CartesianOperator.extractOperands, hposs, List.map_congr_left hrange, List.map_id]
  exact mapM_filter_range _ _ _

/-- As result labels do not repeat, their positions fit into a byte. -/
theorem originalResultPoss_componentOf (hnodup : result.Nodup) (labels : Finset Label) :
    (componentOf operands result labels).2.originalResultPoss = resultPoss labels result := by
  have hrange : ∀ pos ∈ resultPoss labels result, pos % posTypeCount = id pos := by
    intro pos hpos
    have hlt := List.mem_range.mp (List.mem_filter.mp hpos).1
    exact Nat.mod_eq_of_lt (hlt.trans_le (Subscript.length_le_of_nodup hnodup))
  show (resultPoss labels result).map (· % posTypeCount) = _
  rw [List.map_congr_left hrange, List.map_id]

theorem originalResultPoss_map (hnodup : result.Nodup) (ds : List (Finset Label)) :
    (ds.map (componentOf operands result)).map (fun comp => comp.2.originalResultPoss) =
      ds.map fun d => resultPoss d result := by
  rw [List.map_map]
  exact List.map_congr_left fun d _ => originalResultPoss_componentOf hnodup d

theorem labelSet_operandsOf (hc : (subscriptOf operands result).Splits cs) (hm : labels ∈ cs) :
    labelSet (operandsOf operands labels) = labels := by
  ext l
  rw [mem_labelSet]
  constructor
  · rintro ⟨o, ho, hl⟩
    obtain ⟨ho, hne⟩ := List.mem_filter.mp ho
    rw [← filter_labels_eq hc hm ho (of_decide_eq_true hne)] at hl
    exact of_decide_eq_true (List.mem_filter.mp hl).2
  · intro hl
    have hin := (hc.mem l).mpr ⟨labels, hm, hl⟩
    obtain ⟨o, ho, hlo⟩ := mem_labelSet.mp (operandsLabelSet_subscriptOf operands result ▸ hin)
    refine ⟨o, List.mem_filter.mpr ⟨ho, decide_eq_true ?_⟩, hlo⟩
    exact List.ne_nil_of_mem (List.mem_filter.mpr ⟨hlo, decide_eq_true hl⟩)

theorem Problem.componentOf [Inhabited K]
    (hp : Problem t F ns operands result) (labels : Finset Label) :
    Problem t F ns (operandsOf operands labels) (result.filter (· ∈ labels)) :=
  ⟨fun o ho => hp.valid o (List.mem_filter.mp ho).1,
    (List.length_filter_le _ _).trans hp.length, hp.nodup.filter _⟩

theorem local_partOf (hc : (subscriptOf operands result).Splits cs) (hm : labels ∈ cs) :
    (partOf operands result labels).Local := by
  have hdep := dependsOn_constraints (operandsOf operands labels)
  rw [labelSet_operandsOf hc hm] at hdep
  refine ⟨hdep, fun σ τ h => List.map_congr_left fun l hl => h l ?_⟩
  exact of_decide_eq_true (List.mem_filter.mp hl).2

theorem solutions_partOf [Inhabited K]
    (hc : (subscriptOf operands result).Splits cs) (hm : labels ∈ cs) :
    (partOf operands result labels).solutions = solutions (operandsOf operands labels) := by
  rw [LabelledOperand.solutions, labelSet_operandsOf hc hm]
  rfl

/-- Some of the components as one. -/
def joined (operands : List (LabelledOperand K V)) (result : List Label) (ds : List (Finset Label)) :
    Part Label K (List (List K)) :=
  Part.join (ds.map (partOf operands result))

theorem local_joined (hc : (subscriptOf operands result).Splits cs) (hd : ∀ labels ∈ ds, labels ∈ cs) :
    (joined operands result ds).Local :=
  Part.local_join (List.forall_mem_map.mpr fun _ hm => local_partOf hc (hd _ hm))

theorem mem_names_joined {l : Label} :
    l ∈ (joined operands result ds).names ↔ ∃ labels ∈ ds, l ∈ labels := by
  simp only [joined, Part.mem_names_join, List.mem_map, exists_exists_and_eq_and, partOf]

/-- The components, in any order, have the labels of the problem. -/
theorem labelSet_eq_joined (hc : (subscriptOf operands result).Splits cs) (hperm : ds.Perm cs) :
    labelSet operands = (joined operands result ds).names := by
  ext l
  rw [mem_names_joined, ← operandsLabelSet_subscriptOf operands result, hc.mem]
  exact exists_congr fun labels => and_congr_left' hperm.mem_iff.symm

theorem constraints_eq_joined [Inhabited K] (hp : Problem t F ns operands result)
    (hc : (subscriptOf operands result).Splits cs) (hperm : ds.Perm cs) :
    constraints operands = (joined operands result ds).constraint := by
  ext σ
  rw [joined, Part.mem_constraint_join, mem_constraints, List.forall_mem_map]
  constructor
  · intro h labels _
    exact mem_constraints.mpr fun o ho => h o (List.mem_filter.mp ho).1
  · intro h o ho
    obtain ⟨l, hl⟩ := List.exists_mem_of_ne_nil _ (hp.valid o ho).labels
    obtain ⟨labels, hm, hlm⟩ := (hc.mem l).mp
      (Subscript.mem_operandsLabelSet.mpr ⟨o.labels, List.mem_map_of_mem ho, hl⟩)
    refine mem_constraints.mp (h labels (hperm.mem_iff.mpr hm)) o ?_
    refine List.mem_filter.mpr ⟨ho, decide_eq_true ?_⟩
    exact List.ne_nil_of_mem (List.mem_filter.mpr ⟨hl, decide_eq_true hlm⟩)

theorem pairwise_disjoint (hc : (subscriptOf operands result).Splits cs) (hperm : ds.Perm cs) :
    ds.Pairwise Disjoint :=
  (hperm.pairwise_iff fun h => h.symm).mpr hc.disjoint

theorem disjoint_joined (hc : (subscriptOf operands result).Splits cs)
    (hperm : (labels :: ds).Perm cs) : Disjoint (joined operands result ds).names labels := by
  obtain ⟨hdisj, -⟩ := List.pairwise_cons.mp (pairwise_disjoint hc hperm)
  refine Finset.disjoint_left.mpr fun l hl hin => ?_
  obtain ⟨d, hd, hld⟩ := mem_names_joined.mp hl
  exact Finset.disjoint_left.mp (hdisj d hd) hin hld

/-- The solutions combine those of one component with those of the others. -/
theorem solutions_eq_image [Inhabited K] (hp : Problem t F ns operands result)
    (hc : (subscriptOf operands result).Splits cs) (hperm : (labels :: ds).Perm cs) :
    solutions operands =
      (fun p : (Label → K) × (Label → K) => (joined operands result ds).names.piecewise p.1 p.2) ''
        ((joined operands result ds).solutions ×ˢ (partOf operands result labels).solutions) := by
  have hm (d) (hd : d ∈ labels :: ds) : d ∈ cs := hperm.mem_iff.mp hd
  have hlocal := local_joined hc fun d hd => hm d (List.mem_cons_of_mem _ hd)
  have hpart := local_partOf hc (hm labels List.mem_cons_self)
  have hunion : labelSet operands = (joined operands result ds).names ∪ labels :=
    (labelSet_eq_joined hc hperm).trans (Finset.union_comm _ _)
  have hinter : constraints operands =
      (joined operands result ds).constraint ∩ (partOf operands result labels).constraint :=
    (constraints_eq_joined hp hc hperm).trans (Set.inter_comm _ _)
  rw [LabelledOperand.solutions, hunion, hinter]
  exact solutions_inter (disjoint_joined hc hperm) hlocal.constraint hpart.constraint

/-- Writing the readings of components one after the other. -/
theorem writeTuple_joined {key : List K} (hl : key.length = result.length) (σ : Label → K) :
    FullCartesianResult.writeTuple writeKey (ds.map fun d => resultPoss d result)
      ((joined operands result ds).reading σ) key = fill (joined operands result ds).names result key σ := by
  induction ds generalizing key with
  | nil => exact (fill_eq_self hl fun l _ => Finset.notMem_empty l).symm
  | cons labels ds ih =>
    have hhead := writeKey_resultPoss labels result key σ hl
    have htail := @ih (fill labels result key σ) (length_fill hl)
    rw [fill_fill] at htail
    have hnames : (joined operands result (labels :: ds)).names =
        (joined operands result ds).names ∪ labels := Finset.union_comm _ _
    rw [hnames, ← htail, ← hhead]
    rfl

theorem writeKey_joined (hc : (subscriptOf operands result).Splits cs)
    (hperm : (labels :: ds).Perm cs) {key : List K} (hl : key.length = result.length)
    (σ τ : Label → K) :
    writeKey (resultPoss labels result)
        (FullCartesianResult.writeTuple writeKey (ds.map fun d => resultPoss d result)
          ((joined operands result ds).reading σ) key) ((partOf operands result labels).reading τ) =
      fill (labelSet operands) result key ((joined operands result ds).names.piecewise σ τ) := by
  let ρ := (joined operands result ds).names.piecewise σ τ
  have hσ : fill (joined operands result ds).names result key σ =
      fill (joined operands result ds).names result key ρ :=
    fill_congr fun l _ hm => (Finset.piecewise_eq_of_mem _ σ τ hm).symm
  have hτ (key : List K) : fill labels result key τ = fill labels result key ρ := by
    refine fill_congr fun l _ hm => (Finset.piecewise_eq_of_notMem _ σ τ ?_).symm
    exact Finset.disjoint_right.mp (disjoint_joined hc hperm) hm
  rw [writeTuple_joined hl, hσ]
  refine (writeKey_resultPoss labels result _ τ (length_fill hl)).trans ?_
  rw [hτ, fill_fill, labelSet_eq_joined hc hperm]
  rfl

end Components

namespace CartesianOperator

variable [DecidableEq K]

section SubResults

variable {boolValued : Bool} {out : List (Entry K)} {α : Type} {A : Set α} {f : α → List K}

theorem find_subResult (boolValued : Bool) (out : List (Entry K)) (key : List K) :
    find (subResult boolValued out : M (List K) Nat) key =
      if key ∈ out.map (·.key) then some (if boolValued then 1 else weight out key) else none := by
  have hfold (m : M (List K) Nat) : find (out.foldl (fun m e =>
      assign m e.key (if boolValued then 1 else (find m e.key).getD 0 + e.value)) m) key =
        if key ∈ out.map (·.key) then
          some (if boolValued then 1 else (find m key).getD 0 + weight out key) else find m key := by
    induction out generalizing m with
    | nil => rfl
    | cons e out ih =>
      rw [List.foldl_cons, ih, List.map_cons]
      by_cases he : key = e.key
      · rw [he, if_pos List.mem_cons_self, find_assign_self, weight_cons, if_pos rfl]
        by_cases hm : e.key ∈ out.map (·.key)
        · rw [if_pos hm, Option.getD_some]
          cases boolValued with
          | true => rfl
          | false => exact congrArg some (Nat.add_assoc _ _ _)
        · rw [if_neg hm, weight_of_not_mem hm]
          rfl
      · rw [find_assign_ne _ _ he, weight_cons, if_neg (Ne.symm he), Nat.zero_add]
        exact if_congr (by simp [he]) rfl rfl
  rw [subResult, hfold, find_empty]
  simp

/-- The entries of the map. -/
def collected (boolValued : Bool) (out : List (Entry K)) : List (Entry K) :=
  (UnorderedMap.entries (subResult boolValued out : M (List K) Nat)).map fun e => ⟨e.1, e.2⟩

theorem mem_collected {e : Entry K} : e ∈ collected (M := M) boolValued out ↔
    e.key ∈ out.map (·.key) ∧ e.value = if boolValued then 1 else weight out e.key := by
  have hfind : e ∈ collected (M := M) boolValued out ↔
      find (subResult boolValued out : M (List K) Nat) e.key = some e.value := by
    rw [← mem_entries, collected, List.mem_map]
    constructor
    · rintro ⟨⟨key, value⟩, hm, rfl⟩
      exact hm
    · intro hm
      exact ⟨(e.key, e.value), hm, rfl⟩
  rw [hfind, find_subResult]
  by_cases hm : e.key ∈ out.map (·.key)
  · rw [if_pos hm, Option.some.injEq]
    exact ⟨fun h => ⟨hm, h.symm⟩, fun h => h.2.symm⟩
  · rw [if_neg hm]
    exact iff_of_false (by simp) fun h => hm h.1

theorem keys_collected (boolValued : Bool) (out : List (Entry K)) (key : List K) :
    key ∈ (collected (M := M) boolValued out).map (·.key) ↔ key ∈ out.map (·.key) := by
  constructor
  · intro h
    obtain ⟨e, he, rfl⟩ := List.mem_map.mp h
    exact (mem_collected.mp he).1
  · intro h
    let e : Entry K := ⟨key, if boolValued then 1 else weight out key⟩
    exact List.mem_map.mpr ⟨e, mem_collected.mpr ⟨h, rfl⟩, rfl⟩

theorem nodup_collected (boolValued : Bool) (out : List (Entry K)) :
    ((collected (M := M) boolValued out).map (·.key)).Nodup := by
  rw [collected, List.map_map]
  exact nodup_keys _

/-- Nothing is collected of an empty list only. -/
theorem isEmpty_subResult (boolValued : Bool) (out : List (Entry K)) :
    (UnorderedMap.entries (subResult boolValued out : M (List K) Nat)).isEmpty = true ↔ out = [] := by
  have hcollected : collected (M := M) boolValued out = [] ↔ out = [] := by
    rw [← List.map_eq_nil_iff (f := (·.key)), List.eq_nil_iff_forall_not_mem,
      ← List.map_eq_nil_iff (f := (·.key)) (l := out), List.eq_nil_iff_forall_not_mem]
    exact forall_congr' fun key => not_congr (keys_collected boolValued out key)
  rw [← hcollected, List.isEmpty_iff, collected, List.map_eq_nil_iff]

/-- Entries that are summed up by key list the same. -/
theorem collected_spec (h : Lists (!boolValued) out A f) :
    Lists (!boolValued) (collected (M := M) boolValued out) A f := by
  have hvalue (hb : (!boolValued) = true) (e) (he : e ∈ collected (M := M) boolValued out) :
      e.value = weight out e.key := by
    rw [(mem_collected.mp he).2, if_neg (by simpa using hb)]
  refine h.of_weight_eq (keys_collected boolValued out) (fun hb key => ?_) fun hb e he => ?_
  · by_cases hm : key ∈ (collected (M := M) boolValued out).map (·.key)
    · obtain ⟨e, he, rfl⟩ := List.mem_map.mp hm
      rw [weight_of_nodup (nodup_collected boolValued out) he, hvalue hb e he]
    · rw [weight_of_not_mem hm, weight_of_not_mem fun h => hm ((keys_collected boolValued out key).mpr h)]
  · rw [hvalue hb e he]
    exact (weight_ne_zero (h.value hb)).mpr (mem_collected.mp he).1

end SubResults

section Spec

variable [Inhabited K]
variable {t : HypertrieTrait K V} {F : Nat → Finset (SingleEntry K V) → Prop}
variable {ns : NodeStorage M K V} {c : EinsumChoices K V} {boolValued : Bool} {n : Nat}
variable {sub : SubOperator K V} {operands : List (LabelledOperand K V)} {result : List Label}
variable {e : Entry K} {cs ds : List (Finset Label)} {labels : Finset Label}

/-- A component of a problem that is split into smaller ones. -/
theorem component_entries (hs : sub.Right t F ns boolValued n)
    (hp : Problem t F ns (operandsOf operands labels) (result.filter (· ∈ labels)))
    (hc : (subscriptOf operands result).Splits cs) (hm : labels ∈ cs) (hn : labels.card < n) :
    Ensures (sub.entries (componentOf operands result labels).2.subscript
        (componentOf operands result labels).1
        (Entry.makeFilled (componentOf operands result labels).2.subscript.result.length 1))
      (fun res => Lists (!boolValued) res.1 (partOf operands result labels).solutions
        (partOf operands result labels).reading) := by
  have hcard : (labelSet (operandsOf operands labels)).card < n := by rwa [labelSet_operandsOf hc hm]
  have hl : (Entry.makeFilled (K := K) (result.filter (· ∈ labels)).length 1).key.length =
      (result.filter (· ∈ labels)).length := List.length_replicate
  rw [subscript_componentOf hc hm, solutions_partOf hc hm]
  refine (hs.entries hp hcard hl).mono fun res hres => ?_
  refine hres.2.congr fun σ _ => fill_all hl fun l hl => ?_
  rw [labelSet_operandsOf hc hm]
  exact of_decide_eq_true (List.mem_filter.mp hl).2

/-- What is collected of a component. -/
structure Precalculated (boolValued : Bool) (operands : List (LabelledOperand K V))
    (result : List Label) (labels : Finset Label) (out : List (Entry K)) : Prop where
  ne_nil : out ≠ []
  nodup : (out.map (·.key)).Nodup
  lists : Lists (!boolValued) out (partOf operands result labels).solutions
    (partOf operands result labels).reading

/-- The results of the components, or one of them is empty. -/
def SubResultsRight (boolValued : Bool) (operands : List (LabelledOperand K V)) (result : List Label)
    (ds : List (Finset Label)) : Option (List (List (Entry K))) → Prop
  | none => ∃ labels ∈ ds, ¬ (partOf operands result labels).solutions.Nonempty
  | some outs => List.Forall₂ (Precalculated boolValued operands result) ds outs

theorem getSubResults_spec (hs : sub.Right t F ns boolValued n) (hp : Problem t F ns operands result)
    (hc : (subscriptOf operands result).Splits cs) (hd : ∀ labels ∈ ds, labels ∈ cs ∧ labels.card < n) :
    Ensures (getSubResults (M := M) boolValued sub (ds.map (componentOf operands result)))
      (SubResultsRight boolValued operands result ds) := by
  induction ds with
  | nil => exact Ensures.pure .nil
  | cons labels ds ih =>
    obtain ⟨hm, hn⟩ := hd labels List.mem_cons_self
    have ih := ih fun d hm => hd d (List.mem_cons_of_mem _ hm)
    rw [List.map_cons, getSubResults]
    refine Ensures.bind (component_entries hs (hp.componentOf labels) hc hm hn) ?_
    rintro ⟨out, _⟩ hlists
    have hcollected := collected_spec (M := M) hlists
    have hisEmpty : (UnorderedMap.entries (subResult boolValued out : M (List K) Nat)).isEmpty = true ↔
        collected (M := M) boolValued out = [] := by
      rw [List.isEmpty_iff, collected, List.map_eq_nil_iff]
    show Ensures (if (UnorderedMap.entries (subResult boolValued out : M (List K) Nat)).isEmpty then
      some none else _) _
    by_cases hempty : collected (M := M) boolValued out = []
    · rw [if_pos (hisEmpty.mpr hempty)]
      exact Ensures.pure ⟨labels, List.mem_cons_self, fun h => hcollected.ne_nil_iff.mpr h hempty⟩
    · rw [if_neg fun h => hempty (hisEmpty.mp h)]
      refine Ensures.bind ih fun results hresults => Ensures.pure ?_
      cases results with
      | none =>
        obtain ⟨d, hd, hno⟩ := hresults
        exact ⟨d, List.mem_cons_of_mem _ hd, hno⟩
      | some outs => exact .cons ⟨hempty, nodup_collected boolValued out, hcollected⟩ hresults

variable {mapping : List (List Nat)} {poss : List Nat} {outs : List (List (Entry K))}
variable {setsValue : Bool} {Q : Entry K → Prop}

/-- The entry yielded for an entry of the iterated component and a tuple of the others. -/
def ProductOf (boolValued : Bool) (mapping : List (List Nat)) (poss : List Nat) (Q : Entry K → Prop)
    (p : Weighted (List (List K) × List K)) (entry : Entry K) : Prop :=
  (∃ e, Q e ∧ entry.key =
    writeKey poss (FullCartesianResult.writeTuple writeKey mapping p.key.1 e.key) p.key.2) ∧
  ((!boolValued) = true → entry.value = p.value)

omit [DecidableEq K] [Inhabited K] in
theorem iterate_spec {iteratedOut : List (Entry K)} (hset : boolValued = false → setsValue = true)
    (hne : ∀ out ∈ outs, out ≠ []) (hl : mapping.length = outs.length)
    (hval : FullCartesianResult.ValuesOk boolValued outs)
    (hwrite : ∀ (e : Entry K) tuple, Q e →
      Q (e.setKey (FullCartesianResult.writeTuple writeKey mapping tuple e.key)))
    (hbody : ∀ (iterated : Entry K) value e, Q e → Q (productBody setsValue poss iterated value e))
    (hQ : Q e) :
    Ensures (iterate boolValued setsValue poss (.new outs mapping) iteratedOut e) (fun res => Q res.2 ∧
      List.Forall₂ (ProductOf boolValued mapping poss Q) (pairs (tuples outs) iteratedOut) res.1) := by
  induction iteratedOut generalizing e with
  | nil => exact Ensures.pure ⟨hQ, .nil⟩
  | cons iterated iteratedOut ih =>
    rw [iterate]
    refine Ensures.bind (FullCartesianResult.forEach_spec (r := .new outs mapping) hwrite
      (hbody iterated) hne hl hval hQ) ?_
    rintro ⟨out, e'⟩ ⟨hQ', hout⟩
    refine Ensures.bind (ih hQ') ?_
    rintro ⟨rest, e''⟩ ⟨hQ'', hrest⟩
    refine Ensures.pure ⟨hQ'', ?_⟩
    rw [pairs, List.flatMap_cons]
    refine List.rel_append (List.forall₂_map_left_iff.mpr ?_) hrest
    refine hout.imp ?_
    rintro tuple entry ⟨e, hQe, rfl⟩
    refine ⟨⟨e, hQe, ?_⟩, fun hb => ?_⟩
    · cases setsValue <;> rfl
    · have hb : boolValued = false := by simpa using hb
      subst hb
      rw [hset rfl]
      exact Nat.mul_comm iterated.value tuple.value

omit [DecidableEq K] [Inhabited K] in
theorem agree_writeTuple {U : Finset Label} (hm : ∀ poss ∈ mapping, ∀ pos ∈ poss, pos ∈ resultPoss U result)
    (tuple : List (List K)) (key : List K) :
    Agree U result (FullCartesianResult.writeTuple writeKey mapping tuple key) key := by
  induction mapping generalizing tuple key with
  | nil => exact .refl _ _ _
  | cons poss mapping ih =>
    cases tuple with
    | nil => exact .refl _ _ _
    | cons source tuple =>
      exact (ih (fun p hp => hm p (List.mem_cons_of_mem _ hp)) tuple _).trans
        (.writeKey (hm poss List.mem_cons_self) key source)

omit [DecidableEq K] [Inhabited K] in
/-- The components have fewer labels. -/
theorem card_lt_of_splits (hc : (subscriptOf operands result).Splits cs) (hm : labels ∈ cs)
    (hlen : 1 < cs.length) : labels.card < (labelSet operands).card := by
  have hperm := List.perm_cons_erase hm
  have hrest : cs.erase labels ≠ [] := by
    refine List.length_pos_iff.mp ?_
    rw [List.length_erase_of_mem hm]
    omega
  obtain ⟨d, hd⟩ := List.exists_mem_of_ne_nil _ hrest
  obtain ⟨l, hl⟩ := hc.nonempty d (hperm.mem_iff.mpr (List.mem_cons_of_mem _ hd))
  obtain ⟨hdisj, -⟩ := List.pairwise_cons.mp (pairwise_disjoint hc hperm.symm)
  refine Finset.card_lt_card (Finset.ssubset_iff_of_subset ?_ |>.mpr ⟨l, ?_, ?_⟩)
  · exact fun a ha => (hc.mem a).mpr ⟨labels, hm, ha⟩
  · exact (hc.mem l).mpr ⟨d, hperm.mem_iff.mpr (List.mem_cons_of_mem _ hd), hl⟩
  · exact Finset.disjoint_right.mp (hdisj d hd) hl

omit [DecidableEq K] [Inhabited K] in
theorem extractSuboperands_eq (hlen : operands.length ≤ posTypeCount)
    (hcs : (subscriptOf operands result).connectedComponents c.sets = some cs) :
    extractSuboperands c (subscriptOf operands result) (operands.map (·.hypertrie)) =
      some (cs.map (componentOf operands result), c.iteratedPos
        ((cs.map (componentOf operands result)).map fun comp => (comp.1, comp.2.subscript))) := by
  have hextract : (fun labels => extractOperands (operands.map (·.hypertrie))
      ((subscriptOf operands result).extractCartesianSubSubscript labels)) =
        fun labels => some ((operandsOf operands labels).map (·.hypertrie)) :=
    funext fun labels => extractOperands_componentOf hlen labels
  have hmapM : (cs.map (subscriptOf operands result).extractCartesianSubSubscript).mapM
      (extractOperands (operands.map (·.hypertrie))) =
        some (cs.map fun labels => (operandsOf operands labels).map (·.hypertrie)) := by
    rw [List.mapM_map]
    show cs.mapM (fun labels => extractOperands (operands.map (·.hypertrie))
      ((subscriptOf operands result).extractCartesianSubSubscript labels)) = _
    rw [hextract]
    exact List.mapM_pure
  have hzip : (cs.map fun labels => (operandsOf operands labels).map (·.hypertrie)).zip
      (cs.map (subscriptOf operands result).extractCartesianSubSubscript) =
        cs.map (componentOf operands result) := List.zip_map' ..
  rw [extractSuboperands, Subscript.cartesianSubSubscripts, hcs]
  simp only [Option.bind_eq_bind, Option.map_some, Option.bind_some, hmapM, hzip]

/-- The order in which the components are evaluated; the iterated one is the last. -/
def evaluationOrder (c : EinsumChoices K V) (operands : List (LabelledOperand K V))
    (result : List Label) (cs : List (Finset Label)) : List (Finset Label) :=
  let i := c.iteratedPos ((cs.map (componentOf operands result)).map
    fun comp => (comp.1, comp.2.subscript))
  cs.eraseIdx i ++ cs[i]?.toList

omit [DecidableEq K] [Inhabited K] in
/-- One component is iterated, and all have fewer labels than the problem. -/
theorem extractSuboperands_spec (hle : operands.length ≤ posTypeCount)
    (hn : (labelSet operands).card < n + 1)
    (hcs : (subscriptOf operands result).connectedComponents c.sets = some cs) (hlen : 1 < cs.length) :
    ∃ components i labels ds, (subscriptOf operands result).Splits cs ∧ (labels :: ds).Perm cs ∧
      extractSuboperands c (subscriptOf operands result) (operands.map (·.hypertrie)) =
        some (components, i) ∧
      components[i]? = some (componentOf operands result labels) ∧
      components.eraseIdx i = ds.map (componentOf operands result) ∧
      evaluationOrder c operands result cs = ds ++ [labels] ∧
      (labels ∈ cs ∧ labels.card < n) ∧ ∀ d ∈ ds, d ∈ cs ∧ d.card < n := by
  obtain ⟨cs', hcs', hc⟩ := Subscript.connectedComponents_spec c.sets (subscriptOf operands result)
  obtain rfl := Option.some.inj (hcs.symm.trans hcs')
  have hne : (cs.map (componentOf operands result)).map (fun comp => (comp.1, comp.2.subscript)) ≠ [] := by
    simp only [ne_eq, List.map_eq_nil_iff]
    exact List.length_pos_iff.mp (by omega)
  have hi := c.iteratedPos_lt _ hne
  rw [List.length_map, List.length_map] at hi
  have hperm := List.getElem_cons_eraseIdx_perm hi
  have hsmall (d) (hd : d ∈ cs) : d.card < n := by
    have := card_lt_of_splits hc hd hlen
    omega
  refine ⟨_, _, _, _, hc, hperm, extractSuboperands_eq hle hcs, ?_, List.eraseIdx_map .., ?_, ?_, ?_⟩
  · rw [List.getElem?_map, List.getElem?_eq_getElem hi, Option.map_some]
  · rw [evaluationOrder, List.getElem?_eq_getElem hi]
    rfl
  · exact ⟨List.getElem_mem hi, hsmall _ (List.getElem_mem hi)⟩
  · intro d hd
    have hd := hperm.mem_iff.mp (List.mem_cons_of_mem _ hd)
    exact ⟨hd, hsmall d hd⟩

omit [DecidableEq K] in
/-- Without a solution of one component there is none. -/
theorem solutions_eq_empty (hp : Problem t F ns operands result)
    (hc : (subscriptOf operands result).Splits cs) (hperm : (labels :: ds).Perm cs)
    {d : Finset Label} (hd : d ∈ ds) (hno : ¬ (partOf operands result d).solutions.Nonempty) :
    solutions operands = ∅ := by
  refine Set.not_nonempty_iff_eq_empty.mp fun h => hno ?_
  rw [solutions_eq_image hp hc hperm, Set.image_nonempty, Set.prod_nonempty_iff] at h
  have hlocal (part) (hpart : part ∈ ds.map (partOf operands result)) : part.Local := by
    obtain ⟨d, hd, rfl⟩ := List.mem_map.mp hpart
    exact local_partOf hc (hperm.mem_iff.mp (List.mem_cons_of_mem _ hd))
  exact Part.nonempty_of_join hlocal h.1 _ (List.mem_map_of_mem hd)

theorem lists_tuples_joined (hc : (subscriptOf operands result).Splits cs)
    (hperm : (labels :: ds).Perm cs)
    (houts : List.Forall₂ (Precalculated boolValued operands result) ds outs) :
    Lists (!boolValued) (tuples outs) (joined operands result ds).solutions
      (joined operands result ds).reading := by
  have hcs (d) (hd : d ∈ ds) : d ∈ cs := hperm.mem_iff.mp (List.mem_cons_of_mem _ hd)
  refine Part.lists_tuples ?_ ?_ (List.forall₂_map_left_iff.mpr (houts.imp fun _ _ h => h.lists))
  · exact List.forall_mem_map.mpr fun d hd => local_partOf hc (hcs d hd)
  · rw [List.pairwise_map]
    exact (List.pairwise_cons.mp (pairwise_disjoint hc hperm)).2

/-- The yielded products list the solutions. -/
theorem lists_products (hp : Problem t F ns operands result)
    (hc : (subscriptOf operands result).Splits cs) (hperm : (labels :: ds).Perm cs)
    (hl : e.key.length = result.length) {iteratedOut out : List (Entry K)}
    (htuples : Lists (!boolValued) (tuples outs) (joined operands result ds).solutions
      (joined operands result ds).reading)
    (hiterated : Lists (!boolValued) iteratedOut (partOf operands result labels).solutions
      (partOf operands result labels).reading)
    (hout : List.Forall₂ (ProductOf boolValued (ds.map fun d => resultPoss d result)
      (resultPoss labels result) fun e' => Agree (labelSet operands) result e'.key e.key)
      (pairs (tuples outs) iteratedOut) out) :
    Lists (!boolValued) out (solutions operands) (fill (labelSet operands) result e.key) := by
  have hpairs := htuples.pairs hiterated
  let g (p : List (List K) × List K) := writeKey (resultPoss labels result)
    (FullCartesianResult.writeTuple writeKey (ds.map fun d => resultPoss d result) p.1 e.key) p.2
  have hrel : List.Forall₂ (fun p e' => e'.key = g p.key ∧
      ((!boolValued) = true → e'.value = p.value)) (pairs (tuples outs) iteratedOut) out := by
    have hkeys (p) (hp : p ∈ pairs (tuples outs) iteratedOut) :
        p.key ∈ (pairs (tuples outs) iteratedOut).map (·.key) := List.mem_map_of_mem hp
    refine ((List.forall₂_and_left _ _).mpr ⟨hkeys, hout⟩).imp ?_
    rintro p e' ⟨hin, ⟨e'', hagree, hkey⟩, hvalue⟩
    obtain ⟨⟨σ, τ⟩, -, hread⟩ := (hpairs.covers p.key).mp hin
    refine ⟨?_, hvalue⟩
    have hread : p.key = ((joined operands result ds).reading σ,
        (partOf operands result labels).reading τ) := hread.symm
    simp only [g]
    rw [hkey, hread, writeKey_joined hc hperm (hagree.length.trans hl),
      writeKey_joined hc hperm hl, hagree.fill]
  rw [solutions_eq_image hp hc hperm]
  refine (Lists.image (injOn_piecewise (disjoint_joined hc hperm))).mpr ?_
  refine (hpairs.of_forall₂ hrel).congr ?_
  rintro ⟨σ, τ⟩ -
  exact writeKey_joined hc hperm hl σ τ

theorem valuesOk_precalculated (houts : List.Forall₂ (Precalculated boolValued operands result) ds outs) :
    FullCartesianResult.ValuesOk boolValued outs := by
  induction houts with
  | nil => simp [FullCartesianResult.ValuesOk]
  | cons hout _ ih =>
    intro hb
    rw [List.forall_mem_cons]
    exact ⟨hout.lists.value (by simp [hb]), ih hb⟩

theorem ne_nil_precalculated (houts : List.Forall₂ (Precalculated boolValued operands result) ds outs) :
    ∀ out ∈ outs, out ≠ [] := by
  induction houts with
  | nil => simp
  | cons hout _ ih => exact List.forall_mem_cons.mpr ⟨hout.ne_nil, ih⟩

theorem generator_spec (hs : sub.Right t F ns boolValued n) (hp : Problem t F ns operands result)
    (hn : (labelSet operands).card < n + 1) (hl : e.key.length = result.length)
    (hcs : (subscriptOf operands result).connectedComponents c.sets = some cs) (hlen : 1 < cs.length) :
    Ensures (generator (M := M) c boolValued sub (subscriptOf operands result)
      (operands.map (·.hypertrie)) e) (Generates boolValued operands result e) := by
  obtain ⟨components, i, labels, ds, hc, hperm, hextract, hiterated, hothers, -, ⟨hm, hcard⟩, hds⟩ :=
    extractSuboperands_spec hp.length hn hcs hlen
  have hclear := agree_clearUsedEntryPoss e operands result
  rw [generator]
  simp only [hextract, hiterated, hothers, Option.bind_eq_bind, Option.bind_some]
  refine Ensures.bind (getSubResults_spec (M := M) hs hp hc hds) fun subResults hsub => ?_
  cases subResults with
  | none =>
    obtain ⟨d, hd, hno⟩ := hsub
    refine Ensures.pure ⟨hclear, ?_⟩
    rw [solutions_eq_empty hp hc hperm hd hno]
    exact .nil _
  | some outs =>
    have hmapping : (ds.map (componentOf operands result)).map
        (fun comp => comp.2.originalResultPoss) = _ := originalResultPoss_map hp.nodup ds
    have hlength : (ds.map fun d => resultPoss d result).length = outs.length := by
      rw [List.length_map]
      exact hsub.length_eq
    have hposs (d) (hd : d ∈ cs) : ∀ pos ∈ resultPoss d result,
        pos ∈ resultPoss (labelSet operands) result :=
      Agree.resultPoss_subset fun l hl => (hc.mem l).mpr ⟨d, hd, hl⟩
    have hwrite (e' : Entry K) (tuple : List (List K))
        (hQ : Agree (labelSet operands) result e'.key e.key) : Agree (labelSet operands) result
          (e'.setKey (FullCartesianResult.writeTuple writeKey (ds.map fun d => resultPoss d result)
            tuple e'.key)).key e.key :=
      (agree_writeTuple (List.forall_mem_map.mpr fun d hd => hposs d (hds d hd).1) tuple e'.key).trans hQ
    have hbody (iterated : Entry K) (value : Nat) (e' : Entry K)
        (hQ : Agree (labelSet operands) result e'.key e.key) : Agree (labelSet operands) result
          (productBody (!boolValued || (componentOf operands result labels).2.subscript.allResultDone)
            (resultPoss labels result) iterated value e').key e.key := by
      have hkey : Agree (labelSet operands) result
          (writeKey (resultPoss labels result) e'.key iterated.key) e.key :=
        (Agree.writeKey (hposs _ hm) e'.key iterated.key).trans hQ
      rw [productBody]
      split <;> exact hkey
    show Ensures (products boolValued sub (componentOf operands result labels) (.new outs
      ((ds.map (componentOf operands result)).map fun comp => comp.2.originalResultPoss))
      (clearUsedEntryPoss e (subscriptOf operands result))) _
    rw [products, hmapping, originalResultPoss_componentOf hp.nodup]
    refine Ensures.bind (component_entries hs (hp.componentOf labels) hc hm hcard) ?_
    rintro ⟨iteratedOut, _⟩ hlists
    refine (iterate_spec (fun hb => by rw [hb]; rfl) (ne_nil_precalculated hsub) hlength
      (valuesOk_precalculated hsub) hwrite hbody hclear).mono ?_
    rintro ⟨out, e'⟩ ⟨hagree, hout⟩
    exact ⟨hagree, lists_products hp hc hperm hl (lists_tuples_joined hc hperm hsub) hlists hout⟩

/-- Without a result label, there is one entry with the number of solutions. -/
theorem Precalculated.single {out : List (Entry K)}
    (h : Precalculated false operands result labels out) (hd : ∀ l ∈ result, l ∉ labels) :
    ∃ m, out = [⟨[], m⟩] ∧ Counts true m (partOf operands result labels).solutions := by
  have hnil : result.filter (· ∈ labels) = [] :=
    List.filter_eq_nil_iff.mpr fun l hl hm => hd l hl (of_decide_eq_true hm)
  have hkey (e) (he : e ∈ out) : e.key = [] := by
    obtain ⟨σ, -, hread⟩ := (h.lists.covers e.key).mp (List.mem_map_of_mem he)
    rw [← hread, partOf, hnil]
    rfl
  obtain ⟨e, rest, rfl⟩ := List.exists_cons_of_ne_nil h.ne_nil
  have hrest : rest = [] := by
    refine List.eq_nil_iff_forall_not_mem.mpr fun e' he' => ?_
    have hsame : e'.key = e.key :=
      (hkey e' (List.mem_cons_of_mem _ he')).trans (hkey e List.mem_cons_self).symm
    exact (List.nodup_cons.mp h.nodup).1 (List.mem_map.mpr ⟨e', he', hsame⟩)
  subst hrest
  have hcard := (h.lists.tallies rfl).encard_eq
  rw [List.map_singleton, List.sum_singleton] at hcard
  have he : e = ⟨[], e.value⟩ := by
    rw [← hkey e List.mem_cons_self]
  refine ⟨e.value, congrArg (fun e => [e]) he, ⟨?_, fun _ => hcard.symm⟩⟩
  exact iff_of_true (h.lists.value rfl e List.mem_cons_self)
    (h.lists.ne_nil_iff.mp (List.cons_ne_nil _ _))

omit [DecidableEq K] [Inhabited K] in
theorem writeTuple_of_nil {mapping : List (List Nat)} (h : ∀ poss ∈ mapping, poss = [])
    (tuple : List (List K)) (key : List K) :
    FullCartesianResult.writeTuple writeKey mapping tuple key = key := by
  induction mapping generalizing tuple with
  | nil => rfl
  | cons poss mapping ih =>
    cases tuple with
    | nil => rfl
    | cons source tuple =>
      rw [h poss List.mem_cons_self]
      exact ih (fun p hp => h p (List.mem_cons_of_mem _ hp)) tuple

theorem resultPoss_of_done (h : ∀ l ∈ result, l ∉ labels) : resultPoss labels result = [] := by
  refine List.eq_nil_iff_forall_not_mem.mpr fun pos hpos => ?_
  obtain ⟨l, hm, hl⟩ := mem_resultPoss.mp hpos
  exact h l (List.mem_of_getElem? hl) hm

/-- The value of the only tuple is the number of combined solutions. -/
theorem counts_joined (hc : (subscriptOf operands result).Splits cs) (hperm : (labels :: ds).Perm cs)
    (hd : ∀ d ∈ ds, ∀ l ∈ result, l ∉ d)
    (houts : List.Forall₂ (Precalculated false operands result) ds outs) :
    ∃ current, outs.sections = [current] ∧
      Counts true (current.map Weighted.value).prod (joined operands result ds).solutions := by
  have hcs (d) (hd : d ∈ ds) : d ∈ cs := hperm.mem_iff.mp (List.mem_cons_of_mem _ hd)
  have hsingle : ∃ current, outs.sections = [current] ∧
      List.Forall₂ (fun part m => Counts true m part.solutions) (ds.map (partOf operands result))
        (current.map Weighted.value) := by
    clear hperm hcs
    induction houts with
    | nil => exact ⟨[], rfl, .nil⟩
    | @cons d out ds outs hout _ ih =>
      obtain ⟨current, hsections, hcounts⟩ := ih fun d hm => hd d (List.mem_cons_of_mem _ hm)
      obtain ⟨m, rfl, hm⟩ := hout.single (hd d List.mem_cons_self)
      refine ⟨⟨[], m⟩ :: current, ?_, .cons hm hcounts⟩
      rw [List.sections, hsections]
      rfl
  obtain ⟨current, hsections, hcounts⟩ := hsingle
  refine ⟨current, hsections, Part.counts_prod ?_ ?_ hcounts⟩
  · exact List.forall_mem_map.mpr fun d hd => local_partOf hc (hcs d hd)
  · rw [List.pairwise_map]
    exact (List.pairwise_cons.mp (pairwise_disjoint hc hperm)).2

theorem component_single (hs : sub.Right t F ns boolValued n) (hp : Problem t F ns operands result)
    (hc : (subscriptOf operands result).Splits cs) (hm : labels ∈ cs) (hn : labels.card < n)
    (hd : ∀ l ∈ result, l ∉ labels) :
    Ensures (sub.singleResult (componentOf operands result labels).2.subscript
        (componentOf operands result labels).1
        (Entry.makeFilled (componentOf operands result labels).2.subscript.result.length 1))
      (fun e => Counts (!boolValued) e.value (partOf operands result labels).solutions) := by
  have hset := labelSet_operandsOf hc hm
  have hcard : (labelSet (operandsOf operands labels)).card < n := by rwa [hset]
  have hl : (Entry.makeFilled (K := K) (result.filter (· ∈ labels)).length 1).key.length =
      (result.filter (· ∈ labels)).length := List.length_replicate
  have hdone : (subscriptOf (operandsOf operands labels)
      (result.filter (· ∈ labels))).allResultDone = true := by
    refine done_iff.mpr fun l hl => ?_
    rw [hset]
    exact hd l (List.mem_filter.mp hl).1
  rw [subscript_componentOf hc hm, solutions_partOf hc hm]
  exact (hs.singleResult _ _ _ (hp.componentOf labels) hcard hl hdone).mono fun _ h => h.2

theorem singleResult_spec (hs : sub.Right t F ns boolValued n) (hp : Problem t F ns operands result)
    (hn : (labelSet operands).card < n + 1) (hd : (subscriptOf operands result).allResultDone = true)
    (hcs : (subscriptOf operands result).connectedComponents c.sets = some cs) (hlen : 1 < cs.length) :
    Ensures (singleResult (M := M) c boolValued sub (subscriptOf operands result)
      (operands.map (·.hypertrie)) e) (CountsTo boolValued operands e) := by
  obtain ⟨components, i, labels, ds, hc, hperm, hextract, hiterated, hothers, -, ⟨hm, hcard⟩, hds⟩ :=
    extractSuboperands_spec hp.length hn hcs hlen
  have hdone (d) (hd' : d ∈ cs) (l) (hl : l ∈ result) : l ∉ d := fun hm =>
    done_iff.mp hd l hl ((hc.mem l).mpr ⟨d, hd', hm⟩)
  have hdoneDs (d) (hd : d ∈ ds) : ∀ l ∈ result, l ∉ d := hdone d (hds d hd).1
  rw [singleResult, clearUsedEntryPoss_of_done hd]
  simp only [hextract, hiterated, hothers, Option.bind_eq_bind, Option.bind_some]
  refine Ensures.bind (getSubResults_spec (M := M) hs hp hc hds) fun subResults hsub => ?_
  cases subResults with
  | none =>
    obtain ⟨d, hd, hno⟩ := hsub
    refine Ensures.pure ⟨rfl, ?_⟩
    rw [solutions_eq_empty hp hc hperm hd hno]
    exact .zero
  | some outs =>
    show Ensures (singleProduct boolValued sub (componentOf operands result labels) (.new outs
      ((ds.map (componentOf operands result)).map fun comp => comp.2.originalResultPoss)) e) _
    rw [singleProduct]
    refine Ensures.bind (component_single hs hp hc hm hcard (hdone _ hm)) fun iterated hcount => ?_
    have hinj := injOn_piecewise (C := (joined operands result ds).constraint)
      (D := (partOf operands result labels).constraint) (disjoint_joined hc hperm)
    have hne := sections_ne_nil (ne_nil_precalculated hsub)
    cases boolValued with
    | true =>
      have htuples := lists_tuples_joined hc hperm hsub
      have hjoined : (joined operands result ds).solutions.Nonempty := by
        refine htuples.ne_nil_iff.mp ?_
        rw [tuples_eq_map_sections]
        simpa using hne
      refine Ensures.pure ⟨rfl, ?_, by simp⟩
      rw [solutions_eq_image hp hc hperm, Set.image_nonempty, Set.prod_nonempty_iff,
        and_iff_right hjoined]
      exact hcount.ne_zero_iff
    | false =>
      obtain ⟨current, hsections, hprod⟩ := counts_joined hc hperm hdoneDs hsub
      have hmapping : ∀ poss ∈ (ds.map (componentOf operands result)).map
          (fun comp => comp.2.originalResultPoss), poss = [] := by
        rw [originalResultPoss_map hp.nodup, List.forall_mem_map]
        exact fun d hd => resultPoss_of_done (hdoneDs d hd)
      have hlength : ((ds.map (componentOf operands result)).map
          (fun comp => comp.2.originalResultPoss)).length = outs.length := by
        rw [List.length_map, List.length_map]
        exact hsub.length_eq
      have hrestart : FullCartesianResult.restartFrom (· * ·) false writeKey outs _ 1 e.key = _ :=
        FullCartesianResult.restartFrom_spec (ne_nil_precalculated hsub) hlength hsections 1 e.key
      rw [writeTuple_of_nil hmapping] at hrestart
      rw [if_neg Bool.false_ne_true, FullCartesianResult.restart]
      simp only [FullCartesianResult.new, hrestart, Option.bind_eq_bind, Option.bind_some]
      refine Ensures.pure ⟨rfl, ?_⟩
      rw [solutions_eq_image hp hc hperm]
      refine (Counts.image hinj).mpr ?_
      have hvalue : (if false = true then 1 else (current.map Weighted.value).foldl (· * ·) 1) =
          (current.map Weighted.value).prod := by
        rw [if_neg Bool.false_ne_true, List.prod_eq_foldl]
      show Counts true (iterated.value * _) _
      rw [hvalue, Nat.mul_comm]
      exact hprod.prod hcount

end Spec

end CartesianOperator

end Hypertrie
